import Behavior.Assembly
import Behavior.Proofs.Walk

/-!
Where the code of a block graph stands. Emitting appends to what is there, so whatever has been
placed stays in place, and in the end the code of every block in the layout starts where the table
of starts says and runs on into the code of the block after it.
-/

namespace Behavior.Assembly

variable {α : Type}

/-! ## Placement -/

/-- The word of an instruction stands at an offset. -/
def WordAt (s : State) (pos : Nat) (op : Opcode) (operand : Nat) : Prop :=
  s.code[pos]? = some (.word (Word.encode op operand))

/-- A word that leads to a block stands at an offset. -/
def LinkAt (s : State) (pos : Nat) (op : Opcode) (block : Nat) : Prop :=
  s.code[pos]? = some (.toBlock op block)

/-- The code of an expression stands from an offset on. -/
def ScalarAt (s : State) : Nat → Scalar → Prop
  | pos, .const x => ∃ i, s.constants[i]? = some (.ofFloat x) ∧ WordAt s pos .pushConst i
  | pos, .inputSlot slot => WordAt s pos .loadInput slot
  | pos, .localSlot slot => WordAt s pos .loadLocal slot
  | pos, .random => WordAt s pos .random 0
  | pos, .unary f a => ScalarAt s pos a ∧ WordAt s (pos + a.codeSize) (.unary f) 0
  | pos, .binary f a b =>
    ScalarAt s pos a ∧ ScalarAt s (pos + a.codeSize) b ∧
      WordAt s (pos + a.codeSize + b.codeSize) (.binary f) 0
  | pos, .ternary f a b c =>
    ScalarAt s pos a ∧ ScalarAt s (pos + a.codeSize) b ∧
      ScalarAt s (pos + a.codeSize + b.codeSize) c ∧
      WordAt s (pos + a.codeSize + b.codeSize + c.codeSize) (.ternary f) 0
  | pos, .select c a b =>
    ScalarAt s pos c ∧
      WordAt s (pos + c.codeSize) .jumpIfFalse (pos + c.codeSize + a.codeSize + 2) ∧
      ScalarAt s (pos + c.codeSize + 1) a ∧
      WordAt s (pos + c.codeSize + 1 + a.codeSize) .jump
        (pos + c.codeSize + a.codeSize + 2 + b.codeSize) ∧
      ScalarAt s (pos + c.codeSize + 1 + a.codeSize + 1) b

/-- The code of a step stands from one offset to another. -/
def StepAt (s : State) (pos stop : Nat) : Step → Prop
  | .setLocal slot value =>
    ScalarAt s pos value ∧ WordAt s (pos + value.codeSize) .storeLocal slot ∧
      stop = pos + value.codeSize + 1
  | .setOutput slot value =>
    ScalarAt s pos value ∧ WordAt s (pos + value.codeSize) .storeOutput slot ∧
      stop = pos + value.codeSize + 1
  | .call block => LinkAt s pos .call block ∧ stop = pos + 1

/-- A jump to a block stands from one offset to another, with nothing in between if the code of the
block comes next. -/
def JumpAt (s : State) (next : Option Nat) (pos stop block : Nat) : Prop :=
  if next = some block then stop = pos else LinkAt s pos .jump block ∧ stop = pos + 1

/-- The code of an exit stands from one offset to another; after it comes the block `next`. -/
def ExitAt (s : State) (points : Array Typed.Point) (next : Option Nat) (pos stop : Nat) :
    Exit → Prop
  | .jump block => JumpAt s next pos stop block
  | .branch condition thenBlock elseBlock =>
    ScalarAt s pos condition ∧
      if next = some elseBlock then
        LinkAt s (pos + condition.codeSize) .jumpIfTrue thenBlock ∧
          stop = pos + condition.codeSize + 1
      else
        LinkAt s (pos + condition.codeSize) .jumpIfFalse elseBlock ∧
          JumpAt s next (pos + condition.codeSize + 1) stop thenBlock
  | .ret => WordAt s pos .ret 0 ∧ stop = pos + 1
  | .halt => WordAt s pos .halt 0 ∧ stop = pos + 1
  | .wait seconds block =>
    ScalarAt s pos seconds ∧ WordAt s (pos + seconds.codeSize) .wait 0 ∧
      JumpAt s next (pos + seconds.codeSize + 1) stop block
  | .pause point defaultBlock =>
    ∃ i, WordAt s pos .pause i ∧
      s.points[i]? = some ⟨points.getD point default, pos, defaultBlock⟩ ∧ stop = pos + 1

/-- The code of steps stands from one offset to another. -/
def StepsAt (s : State) : Nat → Nat → List (Step × Span) → Prop
  | pos, stop, [] => stop = pos
  | pos, stop, (step, _) :: rest => ∃ mid, StepAt s pos mid step ∧ StepsAt s mid stop rest

/-- The code of a block, or of what is left of it, stands from one offset to another. -/
def BlockAt (s : State) (points : Array Typed.Point) (next : Option Nat) (pos stop : Nat)
    (b : Block) : Prop :=
  ∃ mid, StepsAt s pos mid b.steps ∧ ExitAt s points next mid stop b.exit

/-- The code of blocks stands from an offset on, one after the other. -/
def LayoutAt (s : State) (g : BlockGraph) (points : Array Typed.Point) : Nat → List Nat → Prop
  | _, [] => True
  | pos, block :: rest =>
    ∃ stop, BlockAt s points rest.head? pos stop (g.block block) ∧ LayoutAt s g points stop rest

/-! ## What has been placed stays -/

/-- What has been emitted is still there. -/
structure State.Extends (s t : State) : Prop where
  code : ∀ {i : Nat} {item : Item}, s.code[i]? = some item → t.code[i]? = some item
  constants : ∀ {i : Nat} {c : Constant}, s.constants[i]? = some c → t.constants[i]? = some c
  points : ∀ {i : Nat} {p : PlacedPoint}, s.points[i]? = some p → t.points[i]? = some p

namespace State.Extends

variable {s t u : State} {pos stop : Nat} {next : Option Nat} {points : Array Typed.Point}

theorem refl (s : State) : s.Extends s :=
  ⟨id, id, id⟩

theorem trans (h : s.Extends t) (h' : t.Extends u) : s.Extends u :=
  ⟨h'.code ∘ h.code, h'.constants ∘ h.constants, h'.points ∘ h.points⟩

theorem scalarAt (h : s.Extends t) {e : Scalar} (he : ScalarAt s pos e) :
    ScalarAt t pos e := by
  induction e generalizing pos with
  | const x =>
    obtain ⟨i, hi, hw⟩ := he
    exact ⟨i, h.constants hi, h.code hw⟩
  | inputSlot slot | localSlot slot | random => exact h.code he
  | unary f a iha => exact ⟨iha he.1, h.code he.2⟩
  | binary f a b iha ihb =>
    obtain ⟨ha, hb, hw⟩ := he
    exact ⟨iha ha, ihb hb, h.code hw⟩
  | ternary f a b c iha ihb ihc =>
    obtain ⟨ha, hb, hc, hw⟩ := he
    exact ⟨iha ha, ihb hb, ihc hc, h.code hw⟩
  | select c a b ihc iha ihb =>
    obtain ⟨hc, hif, ha, hjump, hb⟩ := he
    exact ⟨ihc hc, h.code hif, iha ha, h.code hjump, ihb hb⟩

theorem stepAt (h : s.Extends t) {step : Step} (hs : StepAt s pos stop step) :
    StepAt t pos stop step := by
  cases step with
  | setLocal slot value | setOutput slot value => exact ⟨h.scalarAt hs.1, h.code hs.2.1, hs.2.2⟩
  | call block => exact ⟨h.code hs.1, hs.2⟩

theorem jumpAt (h : s.Extends t) {block : Nat} (hj : JumpAt s next pos stop block) :
    JumpAt t next pos stop block := by
  unfold JumpAt at hj ⊢
  split at hj
  · next hnext => rwa [if_pos hnext]
  · next hnext =>
    rw [if_neg hnext]
    exact ⟨h.code hj.1, hj.2⟩

theorem exitAt (h : s.Extends t) {exit : Exit} (he : ExitAt s points next pos stop exit) :
    ExitAt t points next pos stop exit := by
  cases exit with
  | jump block => exact h.jumpAt he
  | branch condition thenBlock elseBlock =>
    refine ⟨h.scalarAt he.1, ?_⟩
    have hlinks := he.2
    split at hlinks
    · next hnext =>
      rw [if_pos hnext]
      exact ⟨h.code hlinks.1, hlinks.2⟩
    · next hnext =>
      rw [if_neg hnext]
      exact ⟨h.code hlinks.1, h.jumpAt hlinks.2⟩
  | ret | halt => exact ⟨h.code he.1, he.2⟩
  | wait seconds block => exact ⟨h.scalarAt he.1, h.code he.2.1, h.jumpAt he.2.2⟩
  | pause point defaultBlock =>
    obtain ⟨i, hw, hp, hstop⟩ := he
    exact ⟨i, h.code hw, h.points hp, hstop⟩

theorem stepsAt (h : s.Extends t) {steps : List (Step × Span)} (hs : StepsAt s pos stop steps) :
    StepsAt t pos stop steps := by
  induction steps generalizing pos with
  | nil => exact hs
  | cons step rest ih =>
    obtain ⟨mid, hstep, hrest⟩ := hs
    exact ⟨mid, h.stepAt hstep, ih hrest⟩

theorem blockAt (h : s.Extends t) {b : Block} (hb : BlockAt s points next pos stop b) :
    BlockAt t points next pos stop b := by
  obtain ⟨mid, hsteps, hexit⟩ := hb
  exact ⟨mid, h.stepsAt hsteps, h.exitAt hexit⟩

end State.Extends

/-! ## Emission -/

/-- What has been emitted after an action. -/
def after (act : Emit Unit) (s : State) : State :=
  (act.run s).2

theorem after_modify (f : State → State) (s : State) : after (modify f) s = f s :=
  rfl

/-- An action that appends `n` items of code and records no start. -/
structure Appends (act : Emit Unit) (s : State) (n : Nat) : Prop where
  ext : s.Extends (after act s)
  size : (after act s).code.size = s.code.size + n
  starts : (after act s).starts = s.starts

theorem Appends.seq {x y : Emit Unit} {s : State} {m n : Nat} (hx : Appends x s m)
    (hy : Appends y (after x s) n) : Appends (do x; y) s (m + n) where
  ext := hx.ext.trans hy.ext
  size := by
    show (after y (after x s)).code.size = _
    rw [hy.size, hx.size, Nat.add_assoc]
  starts := hy.starts.trans hx.starts

theorem getElem?_push_of_eq_some {table : Array α} {i : Nat} {a b : α} (h : table[i]? = some a) :
    (table.push b)[i]? = some a := by
  obtain ⟨hi, -⟩ := Array.getElem?_eq_some_iff.1 h
  rw [Array.getElem?_push, if_neg (Nat.ne_of_lt hi), h]

theorem emitItem_appends (item : Item) (s : State) : Appends (emitItem item) s 1 where
  ext := ⟨getElem?_push_of_eq_some, id, id⟩
  size := Array.size_push ..
  starts := rfl

theorem emitItem_placed (item : Item) (s : State) :
    (after (emitItem item) s).code[s.code.size]? = some item :=
  Array.getElem?_push_size

/-- Marking a place in the source changes no code and no tables. -/
theorem mark_unchanged (span : Span) (s : State) :
    (after (mark span) s).code = s.code ∧ (after (mark span) s).constants = s.constants ∧
      (after (mark span) s).points = s.points ∧ (after (mark span) s).starts = s.starts := by
  rw [mark, after_modify]
  dsimp only
  split
  · split
    · exact ⟨rfl, rfl, rfl, rfl⟩
    · split <;> exact ⟨rfl, rfl, rfl, rfl⟩
  · exact ⟨rfl, rfl, rfl, rfl⟩

theorem mark_appends (span : Span) (s : State) : Appends (mark span) s 0 := by
  obtain ⟨hcode, hconstants, hpoints, hstarts⟩ := mark_unchanged span s
  exact ⟨⟨by rw [hcode]; exact id, by rw [hconstants]; exact id, by rw [hpoints]; exact id⟩,
    by rw [hcode]; rfl, hstarts⟩

/-- A table after a value has been looked up in it, which may have added the value. -/
theorem intern_placed [BEq α] [LawfulBEq α] (table : Array α) (value : α) :
    (Pool.intern table value).2[(Pool.intern table value).1]? = some value ∧
      ∀ {i : Nat} {a : α}, table[i]? = some a → (Pool.intern table value).2[i]? = some a := by
  unfold Pool.intern
  split
  · next index h =>
    obtain ⟨hi, hv, -⟩ := Array.findIdx?_eq_some_iff_getElem.1 h
    refine ⟨?_, id⟩
    rw [Array.getElem?_eq_getElem hi, eq_of_beq hv]
  · exact ⟨Array.getElem?_push_size, getElem?_push_of_eq_some⟩

theorem size_intern_le [BEq α] (table : Array α) (value : α) :
    (Pool.intern table value).2.size ≤ table.size + 1 := by
  unfold Pool.intern
  split
  · exact Nat.le_succ _
  · exact Nat.le_of_eq (Array.size_push ..)

/-- A table without duplicates stays one. -/
theorem intern_nodup [BEq α] [LawfulBEq α] {table : Array α} (value : α) (h : table.toList.Nodup) :
    (Pool.intern table value).2.toList.Nodup := by
  unfold Pool.intern
  split
  · exact h
  · next hnone =>
    rw [Array.toList_push]
    refine List.nodup_append.2 ⟨h, List.nodup_cons.2 ⟨List.not_mem_nil, .nil⟩, ?_⟩
    rintro a ha b hb rfl
    rw [List.mem_singleton.1 hb] at ha
    have hmissing := Array.findIdx?_eq_none_iff.1 hnone value (Array.mem_toList_iff.1 ha)
    rw [beq_self_eq_true] at hmissing
    cases hmissing

/-- The code of an expression stands where it has been emitted, and is as long as foreseen. -/
theorem emitScalar_placed (e : Scalar) (s : State) :
    Appends (emitScalar e) s e.codeSize ∧ ScalarAt (after (emitScalar e) s) s.code.size e := by
  induction e generalizing s with
  | const x =>
    obtain ⟨hvalue, hkeep⟩ := intern_placed s.constants (.ofFloat x)
    let interned : State := { s with constants := (Pool.intern s.constants (.ofFloat x)).2 }
    have hext : s.Extends interned := ⟨id, hkeep, id⟩
    have hemit := emitItem_appends
      (.word (Word.encode .pushConst (Pool.intern s.constants (.ofFloat x)).1)) interned
    exact ⟨⟨hext.trans hemit.ext, hemit.size, hemit.starts⟩, _, hvalue, emitItem_placed _ interned⟩
  | inputSlot slot | localSlot slot | random => exact ⟨emitItem_appends _ s, emitItem_placed _ s⟩
  | unary f a iha =>
    obtain ⟨ha, hpa⟩ := iha s
    have hw := emitItem_appends (.word (Word.encode (.unary f) 0)) (after (emitScalar a) s)
    refine ⟨ha.seq hw, hw.ext.scalarAt hpa, ?_⟩
    rw [← ha.size]
    exact emitItem_placed _ _
  | binary f a b iha ihb =>
    obtain ⟨ha, hpa⟩ := iha s
    obtain ⟨hb, hpb⟩ := ihb (after (emitScalar a) s)
    have hab := ha.seq hb
    have hw := emitItem_appends (.word (Word.encode (.binary f) 0))
      (after (emitScalar b) (after (emitScalar a) s))
    rw [ha.size] at hpb
    refine ⟨hab.seq hw, (hb.ext.trans hw.ext).scalarAt hpa, hw.ext.scalarAt hpb, ?_⟩
    rw [Nat.add_assoc, ← hab.size]
    exact emitItem_placed _ _
  | ternary f a b c iha ihb ihc =>
    obtain ⟨ha, hpa⟩ := iha s
    obtain ⟨hb, hpb⟩ := ihb (after (emitScalar a) s)
    have hab := ha.seq hb
    obtain ⟨hc, hpc⟩ := ihc (after (emitScalar b) (after (emitScalar a) s))
    have habc := hab.seq hc
    have hw := emitItem_appends (.word (Word.encode (.ternary f) 0))
      (after (emitScalar c) (after (emitScalar b) (after (emitScalar a) s)))
    rw [ha.size] at hpb
    have hsize : (after (emitScalar b) (after (emitScalar a) s)).code.size =
        s.code.size + a.codeSize + b.codeSize := by
      rw [hb.size, ha.size]
    rw [hsize] at hpc
    refine ⟨habc.seq hw, (hb.ext.trans (hc.ext.trans hw.ext)).scalarAt hpa,
      (hc.ext.trans hw.ext).scalarAt hpb, hw.ext.scalarAt hpc, ?_⟩
    rw [← hsize, ← hc.size]
    exact emitItem_placed _ _
  | select c a b ihc iha ihb =>
    obtain ⟨hc, hpc⟩ := ihc s
    let s₁ := after (emitScalar c) s
    let link₁ : Item := .word (Word.encode .jumpIfFalse (s₁.code.size + a.codeSize + 2))
    let s₂ := after (emitItem link₁) s₁
    obtain ⟨ha, hpa⟩ := iha s₂
    let s₃ := after (emitScalar a) s₂
    let link₂ : Item := .word (Word.encode .jump (s₁.code.size + a.codeSize + 2 + b.codeSize))
    let s₄ := after (emitItem link₂) s₃
    obtain ⟨hb, hpb⟩ := ihb s₄
    have h₂ := emitItem_appends link₁ s₁
    have h₄ := emitItem_appends link₂ s₃
    have hp₁ := emitItem_placed link₁ s₁
    have hp₂ := emitItem_placed link₂ s₃
    have hsize₁ : s₁.code.size = s.code.size + c.codeSize := hc.size
    have hsize₂ : s₂.code.size = s.code.size + c.codeSize + 1 := by rw [h₂.size, hsize₁]
    have hsize₃ : s₃.code.size = s.code.size + c.codeSize + 1 + a.codeSize := by
      rw [ha.size, hsize₂]
    have hsize₄ : s₄.code.size = s.code.size + c.codeSize + 1 + a.codeSize + 1 := by
      rw [h₄.size, hsize₃]
    have h₃₅ := h₄.ext.trans hb.ext
    have h₂₅ := ha.ext.trans h₃₅
    have h₁₅ := h₂.ext.trans h₂₅
    refine ⟨⟨hc.ext.trans h₁₅, ?_, ?_⟩, h₁₅.scalarAt hpc, ?_, ?_, ?_, ?_⟩
    · show (after (emitScalar b) s₄).code.size = _
      rw [hb.size, hsize₄, Scalar.codeSize]
      omega
    · exact hb.starts.trans (h₄.starts.trans (ha.starts.trans (h₂.starts.trans hc.starts)))
    · refine h₂₅.code ?_
      rw [hsize₁] at hp₁
      rw [hp₁]
      simp only [link₁, hsize₁]
    · exact h₃₅.scalarAt (hsize₂ ▸ hpa)
    · refine hb.ext.code ?_
      rw [hsize₃] at hp₂
      rw [hp₂]
      simp only [link₂, hsize₁]
    · exact hsize₄ ▸ hpb

/-- An expression and the instruction that takes its value. -/
theorem emitScalar_then (e : Scalar) (item : Item) (s : State) :
    Appends (do emitScalar e; emitItem item) s (e.codeSize + 1) ∧
      ScalarAt (after (do emitScalar e; emitItem item) s) s.code.size e ∧
      (after (do emitScalar e; emitItem item) s).code[s.code.size + e.codeSize]? = some item := by
  obtain ⟨he, hpe⟩ := emitScalar_placed e s
  have hi := emitItem_appends item (after (emitScalar e) s)
  refine ⟨he.seq hi, hi.ext.scalarAt hpe, ?_⟩
  rw [← he.size]
  exact emitItem_placed _ _

theorem emitStep_placed (step : Step) (s : State) :
    ∃ n, Appends (emitStep step) s n ∧
      StepAt (after (emitStep step) s) s.code.size (s.code.size + n) step := by
  cases step with
  | setLocal slot value =>
    obtain ⟨happ, hvalue, hstore⟩ :=
      emitScalar_then value (.word (Word.encode .storeLocal slot)) s
    exact ⟨_, happ, hvalue, hstore, rfl⟩
  | setOutput slot value =>
    obtain ⟨happ, hvalue, hstore⟩ :=
      emitScalar_then value (.word (Word.encode .storeOutput slot)) s
    exact ⟨_, happ, hvalue, hstore, rfl⟩
  | call block => exact ⟨1, emitItem_appends _ s, emitItem_placed _ s, rfl⟩

theorem emitJump_placed (next : Option Nat) (block : Nat) (s : State) :
    ∃ n, Appends (emitJump next block) s n ∧
      JumpAt (after (emitJump next block) s) next s.code.size (s.code.size + n) block := by
  unfold emitJump JumpAt
  by_cases hnext : next = some block
  · rw [if_neg (not_not_intro hnext)]
    simp only [if_pos hnext]
    exact ⟨0, ⟨.refl s, rfl, rfl⟩, rfl⟩
  · rw [if_pos hnext]
    simp only [if_neg hnext]
    exact ⟨1, emitItem_appends _ s, emitItem_placed _ s, rfl⟩

theorem emitPause_placed (points : Array Typed.Point) (point defaultBlock : Nat) (s : State) :
    Appends (emitPause points point defaultBlock) s 1 ∧
      ∃ i, WordAt (after (emitPause points point defaultBlock) s) s.code.size .pause i ∧
        (after (emitPause points point defaultBlock) s).points[i]? =
          some ⟨points.getD point default, s.code.size, defaultBlock⟩ := by
  let placed : PlacedPoint := ⟨points.getD point default, s.code.size, defaultBlock⟩
  let numbered : State := { s with points := s.points.push placed }
  have hext : s.Extends numbered := ⟨id, id, getElem?_push_of_eq_some⟩
  have hemit := emitItem_appends (.word (Word.encode .pause s.points.size)) numbered
  exact ⟨⟨hext.trans hemit.ext, hemit.size, hemit.starts⟩, s.points.size,
    emitItem_placed _ numbered, hemit.ext.points Array.getElem?_push_size⟩

theorem emitExit_placed (points : Array Typed.Point) (next : Option Nat) (exit : Exit)
    (s : State) :
    ∃ n, Appends (emitExit points next exit) s n ∧
      ExitAt (after (emitExit points next exit) s) points next s.code.size (s.code.size + n)
        exit := by
  cases exit with
  | jump block => exact emitJump_placed next block s
  | branch condition thenBlock elseBlock =>
    by_cases hnext : next = some elseBlock
    · obtain ⟨happ, hcond, hlink⟩ :=
        emitScalar_then condition (.toBlock .jumpIfTrue thenBlock) s
      have heq : emitExit points next (.branch condition thenBlock elseBlock) =
          (do emitScalar condition; emitItem (.toBlock .jumpIfTrue thenBlock)) := by
        simp only [emitExit, if_pos hnext]
      rw [heq]
      refine ⟨_, happ, hcond, ?_⟩
      rw [if_pos hnext]
      exact ⟨hlink, rfl⟩
    · obtain ⟨happ, hcond, hlink⟩ :=
        emitScalar_then condition (.toBlock .jumpIfFalse elseBlock) s
      obtain ⟨n, hjump, hjumpAt⟩ := emitJump_placed next thenBlock
        (after (do emitScalar condition; emitItem (.toBlock .jumpIfFalse elseBlock)) s)
      have heq : after (emitExit points next (.branch condition thenBlock elseBlock)) s =
          after (emitJump next thenBlock)
            (after (do emitScalar condition; emitItem (.toBlock .jumpIfFalse elseBlock)) s) := by
        simp only [emitExit, if_neg hnext]
        rfl
      refine ⟨condition.codeSize + 1 + n, ⟨?_, ?_, ?_⟩, ?_⟩
      · rw [heq]
        exact happ.ext.trans hjump.ext
      · rw [heq, hjump.size, happ.size, Nat.add_assoc]
      · rw [heq]
        exact hjump.starts.trans happ.starts
      · rw [heq]
        refine ⟨hjump.ext.scalarAt hcond, ?_⟩
        rw [if_neg hnext]
        refine ⟨hjump.ext.code hlink, ?_⟩
        rw [happ.size] at hjumpAt
        simpa only [Nat.add_assoc] using hjumpAt
  | ret | halt => exact ⟨1, emitItem_appends _ s, emitItem_placed _ s, rfl⟩
  | wait seconds block =>
    obtain ⟨happ, hseconds, hwait⟩ := emitScalar_then seconds (.word (Word.encode .wait 0)) s
    obtain ⟨n, hjump, hjumpAt⟩ := emitJump_placed next block
      (after (do emitScalar seconds; emitItem (.word (Word.encode .wait 0))) s)
    refine ⟨_, happ.seq hjump, hjump.ext.scalarAt hseconds, hjump.ext.code hwait, ?_⟩
    rw [happ.size] at hjumpAt
    simp only [Nat.add_assoc] at hjumpAt ⊢
    exact hjumpAt
  | pause point defaultBlock =>
    obtain ⟨happ, i, hword, hpoint⟩ := emitPause_placed points point defaultBlock s
    exact ⟨1, happ, i, hword, hpoint, rfl⟩

theorem emitSteps_placed (steps : List (Step × Span)) (s : State) :
    ∃ n, Appends (emitSteps steps) s n ∧
      StepsAt (after (emitSteps steps) s) s.code.size (s.code.size + n) steps := by
  induction steps generalizing s with
  | nil => exact ⟨0, ⟨.refl s, rfl, rfl⟩, rfl⟩
  | cons head rest ih =>
    obtain ⟨step, span⟩ := head
    have hmark := mark_appends span s
    obtain ⟨m, hstep, hstepAt⟩ := emitStep_placed step (after (mark span) s)
    obtain ⟨n, hrest, hrestAt⟩ := ih (after (emitStep step) (after (mark span) s))
    rw [hmark.size] at hstepAt
    rw [hstep.size, hmark.size] at hrestAt
    refine ⟨0 + (m + n), hmark.seq (hstep.seq hrest), _, hrest.ext.stepAt hstepAt, ?_⟩
    simp only [Nat.add_zero, Nat.zero_add, Nat.add_assoc] at hrestAt ⊢
    exact hrestAt

/-- The state once the start of a block, and of its flow if it has one, has been recorded. -/
def State.begin (s : State) (block : Nat) (flow? : Option String) : State :=
  { s with
    starts := s.starts.setIfInBounds block (some s.code.size)
    flows := match flow? with
      | some name => (s.code.size.toUInt32, name) :: s.flows
      | none => s.flows }

theorem emitBlock_eq (g : BlockGraph) (points : Array Typed.Point) (block : Nat)
    (next : Option Nat) (s : State) :
    after (emitBlock g points block next) s =
      after (emitExit points next (g.block block).exit)
        (after (mark (g.block block).exitSpan)
          (after (emitSteps (g.block block).steps) (s.begin block g.flows[block]?))) := by
  unfold emitBlock
  cases g.flows[block]? <;> rfl

theorem emitBlock_placed (g : BlockGraph) (points : Array Typed.Point) (block : Nat)
    (next : Option Nat) (s : State) :
    s.Extends (after (emitBlock g points block next) s) ∧
      s.code.size ≤ (after (emitBlock g points block next) s).code.size ∧
      BlockAt (after (emitBlock g points block next) s) points next s.code.size
        (after (emitBlock g points block next) s).code.size (g.block block) ∧
      (after (emitBlock g points block next) s).starts =
        s.starts.setIfInBounds block (some s.code.size) := by
  let s₀ := s.begin block g.flows[block]?
  have hext : s.Extends s₀ := ⟨id, id, id⟩
  obtain ⟨m, hsteps, hstepsAt⟩ := emitSteps_placed (g.block block).steps s₀
  let s₁ := after (emitSteps (g.block block).steps) s₀
  have hmark := mark_appends (g.block block).exitSpan s₁
  obtain ⟨n, hexit, hexitAt⟩ := emitExit_placed points next (g.block block).exit
    (after (mark (g.block block).exitSpan) s₁)
  have heq := emitBlock_eq g points block next s
  have hsize : s₁.code.size = s.code.size + m := hsteps.size
  rw [hmark.size, hsize, Nat.add_zero] at hexitAt
  have hstop : (after (emitBlock g points block next) s).code.size = s.code.size + m + n := by
    rw [heq, hexit.size, hmark.size, hsize, Nat.add_zero]
  rw [hstop, heq]
  refine ⟨hext.trans (hsteps.ext.trans (hmark.ext.trans hexit.ext)), by omega, ?_, ?_⟩
  · exact ⟨_, (hmark.ext.trans hexit.ext).stepsAt hstepsAt, hexitAt⟩
  · exact hexit.starts.trans (hmark.starts.trans hsteps.starts)

/-- The blocks of a layout stand one after the other, and each one that has a recorded start has its
code there, followed by the rest of the layout. -/
theorem emitBlocks_placed (g : BlockGraph) (points : Array Typed.Point) (layout : List Nat)
    (s : State) :
    s.Extends (after (emitBlocks g points layout) s) ∧
      s.code.size ≤ (after (emitBlocks g points layout) s).code.size ∧
      LayoutAt (after (emitBlocks g points layout) s) g points s.code.size layout ∧
      ∀ b start : Nat, (after (emitBlocks g points layout) s).starts[b]? = some (some start) →
        s.starts[b]? = some (some start) ∨
          start ≤ (after (emitBlocks g points layout) s).code.size ∧
            ∃ rest, b :: rest <:+ layout ∧
              LayoutAt (after (emitBlocks g points layout) s) g points start (b :: rest) := by
  induction layout generalizing s with
  | nil => exact ⟨.refl s, Nat.le_refl _, trivial, fun b start h => Or.inl h⟩
  | cons block rest ih =>
    obtain ⟨hext, hsize, hblock, hstarts⟩ := emitBlock_placed g points block rest.head? s
    obtain ⟨hext', hsize', hlayout, hrest⟩ := ih (after (emitBlock g points block rest.head?) s)
    have hplaced : LayoutAt (after (emitBlocks g points (block :: rest)) s) g points s.code.size
        (block :: rest) :=
      ⟨_, hext'.blockAt hblock, hlayout⟩
    refine ⟨hext.trans hext', Nat.le_trans hsize hsize', hplaced, ?_⟩
    intro b start h
    rcases hrest b start h with hb | hb
    · rw [hstarts, Array.getElem?_setIfInBounds] at hb
      split at hb
      · next hblock =>
        subst hblock
        split at hb
        · cases hb
          exact Or.inr ⟨Nat.le_trans hsize hsize', rest, List.suffix_refl _, hplaced⟩
        · cases hb
      · exact Or.inl hb
    · obtain ⟨hle, rest', hsuffix, hat⟩ := hb
      exact Or.inr ⟨hle, rest', hsuffix.trans (List.suffix_cons ..), hat⟩

/-- What is emitted for a graph. -/
def emission (g : BlockGraph) (points : Array Typed.Point) : State :=
  after (emitBlocks g points g.layout) { starts := Array.replicate g.blocks.size none }

end Behavior.Assembly
