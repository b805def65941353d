import Behavior.Block.Share
import Behavior.Proofs.Bits
import Behavior.Proofs.Instructions
import Behavior.Proofs.Passes

/-!
Keeping a repeated value in a local keeps what walks do, as long as the inputs stay the same while
the local is in use. Within one run they do. Between runs they may change, and a block that has
called another one is then still to be finished, so the called one must not wait or pause.
-/

namespace Behavior

variable {locals' locals : Nat → Float} {i slot c : Nat} {span : Span} {g' : BlockGraph}

namespace Scalar

variable {e : Scalar}
variable {inputs : Array Float} {x : Extent}

/-- Expressions that are found to be the same are equal. -/
theorem eq_of_same {a b : Scalar} (h : a.same b) : a = b := by
  induction a generalizing b with
  | const x =>
    cases b with
    | const y => exact congrArg const (Binary64.toBits_inj (eq_of_beq h))
    | _ => cases h
  | inputSlot i =>
    cases b with
    | inputSlot j => exact congrArg inputSlot (eq_of_beq h)
    | _ => cases h
  | localSlot i =>
    cases b with
    | localSlot j => exact congrArg localSlot (eq_of_beq h)
    | _ => cases h
  | random =>
    cases b with
    | random => rfl
    | _ => cases h
  | unary f a iha =>
    cases b with
    | unary g b =>
      simp only [same, Bool.and_eq_true, beq_iff_eq] at h
      rw [h.1, iha h.2]
    | _ => cases h
  | binary f a b iha ihb =>
    cases b with
    | binary g c d =>
      simp only [same, Bool.and_eq_true, beq_iff_eq] at h
      rw [h.1.1, iha h.1.2, ihb h.2]
    | _ => cases h
  | ternary f a b c iha ihb ihc =>
    cases b with
    | ternary g d e i =>
      simp only [same, Bool.and_eq_true, beq_iff_eq] at h
      rw [h.1.1.1, iha h.1.1.2, ihb h.1.2, ihc h.2]
    | _ => cases h
  | select a b c iha ihb ihc =>
    cases b with
    | select d e i =>
      simp only [same, Bool.and_eq_true] at h
      rw [iha h.1.1, ihb h.1.2, ihc h.2]
    | _ => cases h

theorem same_self (e : Scalar) : e.same e = true := by
  induction e <;> simp_all [same]

/-- An expression of inputs and constants only. -/
structure Fixed (e : Scalar) : Prop where
  isPure : e.isPure = true
  readsLocals : e.readsLocals = false

/-- Locals that an expression does not read do not matter. -/
theorem eval_congr (he : e.Within x) (h : ∀ i < x.locals, locals' i = locals i) (r : Tape) :
    e.eval inputs locals' r = e.eval inputs locals r := by
  induction e generalizing r with
  | const v => rfl
  | inputSlot slot => rfl
  | localSlot slot => simp only [eval, h slot he]
  | random => rfl
  | unary f a iha => simp only [eval, iha he]
  | binary f a b iha ihb => simp only [eval, iha he.1, ihb he.2]
  | ternary f a b c iha ihb ihc => simp only [eval, iha he.1, ihb he.2.1, ihc he.2.2]
  | select c a b ihc iha ihb => simp only [eval, ihc he.1, iha he.2.1, ihb he.2.2]

theorem eval_of_not_readsLocals (h : e.readsLocals = false) (inputs : Array Float)
    (locals locals' : Nat → Float) (r : Tape) :
    e.eval inputs locals' r = e.eval inputs locals r := by
  induction e generalizing r with
  | const v => rfl
  | inputSlot slot => rfl
  | localSlot slot => cases h
  | random => rfl
  | unary f a iha => simp only [eval, iha h]
  | binary f a b iha ihb =>
    simp only [readsLocals, Bool.or_eq_false_iff] at h
    simp only [eval, iha h.1, ihb h.2]
  | ternary f a b c iha ihb ihc =>
    simp only [readsLocals, Bool.or_eq_false_iff] at h
    simp only [eval, iha h.1.1, ihb h.1.2, ihc h.2]
  | select c a b ihc iha ihb =>
    simp only [readsLocals, Bool.or_eq_false_iff] at h
    simp only [eval, ihc h.1.1, iha h.1.2, ihb h.2]

/-- The value of an expression whose value is fixed by the inputs. -/
def fixedValue (inputs : Array Float) (e : Scalar) : Float :=
  (e.eval inputs (fun _ => 0.0) default).1

theorem Fixed.eval (h : e.Fixed) (inputs : Array Float) (locals : Nat → Float) (r : Tape) :
    e.eval inputs locals r = (e.fixedValue inputs, r) := by
  obtain ⟨x, hx⟩ := eval_of_isPure h.isPure inputs locals
  rw [fixedValue, eval_of_not_readsLocals h.readsLocals inputs locals fun _ => 0.0, hx, hx]

/-- Reading the local in place of the value it holds. -/
theorem eval_replace {value : Scalar} (hvalue : value.Fixed) (he : e.Within x)
    (hlocals : ∀ i < x.locals, locals' i = locals i)
    (hslot : locals' slot = value.fixedValue inputs) (r : Tape) :
    (replace value slot e).eval inputs locals' r = e.eval inputs locals r := by
  have hsame : ∀ {e : Scalar} {r : Tape}, e.same value = true →
      (localSlot slot).eval inputs locals' r = e.eval inputs locals r := by
    intro e r h
    rw [eq_of_same h, hvalue.eval, Scalar.eval, hslot]
  induction e generalizing r with
  | const v | inputSlot i | random =>
    unfold replace
    split
    · next h => exact hsame h
    · rfl
  | localSlot i =>
    unfold replace
    split
    · next h => exact hsame h
    · simp only [Scalar.eval, hlocals i he]
  | unary f a iha =>
    unfold replace
    split
    · next h => exact hsame h
    · simp only [Scalar.eval, iha he]
  | binary f a b iha ihb =>
    unfold replace
    split
    · next h => exact hsame h
    · simp only [Scalar.eval, iha he.1, ihb he.2]
  | ternary f a b c iha ihb ihc =>
    unfold replace
    split
    · next h => exact hsame h
    · simp only [Scalar.eval, iha he.1, ihb he.2.1, ihc he.2.2]
  | select c a b ihc iha ihb =>
    unfold replace
    split
    · next h => exact hsame h
    · simp only [Scalar.eval, ihc he.1, iha he.2.1, ihb he.2.2]

end Scalar

/-! ## Blocks that neither wait nor pause -/

def Exit.suspends : Exit → Bool
  | .wait _ _ | .pause _ _ => true
  | _ => false

namespace BlockGraph

/-- Calls and exits can lead from one block to another. -/
inductive Leads (g : BlockGraph) : Nat → Nat → Prop
  | refl (i : Nat) : Leads g i i
  | step {i j k : Nat} : j ∈ (g.block i).targets → Leads g j k → Leads g i k

/-- Nothing that a block can lead to waits or pauses. -/
def Silent (g : BlockGraph) (i : Nat) : Prop :=
  ∀ j, g.Leads i j → (g.block j).exit.suspends = false

/-- Neither what is left of a block nor anything it can lead to waits or pauses. -/
structure SilentFrom (g : BlockGraph) (b : Block) : Prop where
  exit : b.exit.suspends = false
  targets : ∀ i ∈ b.targets, g.Silent i

theorem Silent.block {g : BlockGraph} (h : g.Silent i) : g.SilentFrom (g.block i) :=
  ⟨h i (.refl i), fun _ hj k hk => h k (.step hj hk)⟩

end BlockGraph

/-- The calls of a block are to blocks that stay silent. -/
def Block.CallsSilently (g : BlockGraph) (b : Block) : Prop :=
  ∀ c span, (Step.call c, span) ∈ b.steps → g.Silent c

namespace Block

variable {b : Block}

theorem mem_targets_of_call (h : (Step.call c, span) ∈ b.steps) : c ∈ b.targets :=
  List.mem_append_left _ (List.mem_filterMap.2 ⟨_, h, rfl⟩)

theorem mem_targets_of_exit (h : i ∈ b.exit.targets) : i ∈ b.targets :=
  List.mem_append_right _ h

theorem mapValues_eq_self {f : Scalar → Scalar} (h : ∀ e ∈ b.values, f e = e) :
    b.mapValues f = b := by
  have hsteps : ∀ s ∈ b.steps, (s.1.mapValue f, s.2) = s := by
    rintro ⟨s, span⟩ hs
    have hvalue : ∀ e, s.value? = some e → f e = e := fun e he =>
      h e (List.mem_append_left _ (List.mem_filterMap.2 ⟨_, hs, he⟩))
    cases s with
    | setLocal slot value | setOutput slot value => simp only [Step.mapValue, hvalue value rfl]
    | call c => rfl
  have hexit : b.exit.mapValue f = b.exit := by
    have hvalue : ∀ e, b.exit.value? = some e → f e = e := fun e he =>
      h e (List.mem_append_right _ (Option.mem_toList.2 he))
    cases hexit : b.exit with
    | branch c _ _ | wait c _ => simp only [Exit.mapValue, hvalue c (by rw [hexit]; rfl)]
    | _ => rfl
  rw [mapValues, hexit]
  congr 1
  exact (List.map_congr_left hsteps).trans (List.map_id' _)

theorem mapValues_id (b : Block) : b.mapValues id = b :=
  mapValues_eq_self fun _ _ => rfl

theorem values_mapValues (b : Block) (f : Scalar → Scalar) :
    (b.mapValues f).values = b.values.map f := by
  have hstep : (fun s : Step × Span => s.1.value?) ∘
      (fun s : Step × Span => (s.1.mapValue f, s.2)) = fun s => s.1.value?.map f := by
    funext s
    obtain ⟨s, span⟩ := s
    cases s <;> rfl
  have hexit : (b.exit.mapValue f).value?.toList = b.exit.value?.toList.map f := by
    cases b.exit <;> rfl
  show (b.steps.map fun s => (s.1.mapValue f, s.2)).filterMap (fun s => s.1.value?) ++
    (b.exit.mapValue f).value?.toList = b.values.map f
  rw [List.filterMap_map, hstep, hexit, values, List.map_append, List.map_filterMap]

end Block

theorem BlockGraph.SilentFrom.tail {g : BlockGraph} {b : Block} (h : g.SilentFrom b)
    {s : Step × Span} {rest : List (Step × Span)} (hb : b.steps = s :: rest) :
    g.SilentFrom { b with steps := rest } := by
  refine ⟨h.exit, fun i hi => h.targets i ?_⟩
  simp only [Block.targets, hb, List.filterMap_cons, List.mem_append] at hi ⊢
  rcases hi with hi | hi
  · left
    split
    · exact hi
    · exact List.mem_cons_of_mem _ hi
  · exact .inr hi

/-! ## Sharing one value -/

/-- The graph in which one block keeps a value in a local. -/
def BlockGraph.shareAt (g : BlockGraph) (k slot : Nat) (value : Scalar) : BlockGraph :=
  { g with
    blocks := g.blocks.setIfInBounds k ((g.block k).shareValue slot value)
    localCount := slot + 1 }

/-- The walk after the block has put the value in its local. -/
def Walk.keeping (g : BlockGraph) (k slot : Nat) (value : Scalar) (inputs : Array Float)
    (v : Walk) : Walk :=
  { v with
    block := (g.block k).mapValues (.replace value slot)
    locals := Function.update v.locals slot (value.fixedValue inputs) }

section

variable (changes : Prop) (g : BlockGraph) (x : Extent) (value : Scalar) (kept : Prop)

/-- What is left of a block, and of the block with the value shared. Either they are equal, or the
local is read in place of the value and does hold it. If inputs may change, then in the second case
everything inside stays silent, and so does everything the block calls. -/
def Counterpart (inner : Prop) (b b' : Block) : Prop :=
  b.Within x ∧ (b' = b ∨
    b' = b.mapValues (.replace value x.locals) ∧ kept ∧ (changes → inner ∧ b.CallsSilently g))

/-- Counterparts for everything that is left to be done, the innermost first. -/
def Counterparts (inner : Prop) : List Block → List Block → Prop
  | [], [] => True
  | b :: rest, b' :: rest' =>
    Counterpart changes g x value kept inner b b' ∧
      Counterparts (inner ∧ g.SilentFrom b) rest rest'
  | _, _ => False

/-- Where a walk and the walk with the shared value are. -/
structure Shared (inputs : Array Float) (w v : Walk) : Prop where
  counterparts : Counterparts changes g x value (v.locals x.locals = value.fixedValue inputs) True
    (w.block :: w.calls) (v.block :: v.calls)
  locals : ∀ i < x.locals, v.locals i = w.locals i
  outputs : v.outputs = w.outputs
  tape : v.tape = w.tape

/-- Both walks are at the start of the block that shares the value, which is still to be put in its
local. -/
structure Poised (k : Nat) (inputs : Array Float) (w v : Walk) : Prop where
  plain : w.block = g.block k
  sharing : v.block = (g.block k).shareValue x.locals value
  shared : Shared changes g x value inputs w (v.keeping g k x.locals value inputs)

/-- The same, if need be after the value has been put in its local. -/
def NearlyShared (k : Nat) (inputs : Array Float) (w v : Walk) : Prop :=
  Shared changes g x value inputs w v ∨ Poised changes g x value k inputs w v

end

section

variable {changes kept inner : Prop} {g : BlockGraph} {x : Extent} {value : Scalar} {k : Nat}
  {inputs : Array Float} {w v : Walk} {bs : List Block}
variable {bs' calls' calls : List Block}

theorem Counterparts.mono {kept' inner' : Prop} (hkept : kept → kept') (hinner : inner → inner')
    (h : Counterparts changes g x value kept inner bs bs') :
    Counterparts changes g x value kept' inner' bs bs' := by
  induction bs generalizing inner inner' bs' with
  | nil =>
    cases bs' with
    | nil => trivial
    | cons b' rest' => exact absurd h id
  | cons b rest ih =>
    cases bs' with
    | nil => exact absurd h id
    | cons b' rest' =>
      obtain ⟨⟨hwithin, hb⟩, hrest⟩ := h
      refine ⟨⟨hwithin, hb.imp id ?_⟩, ih (And.imp_left hinner) hrest⟩
      rintro ⟨hb', hk, hsilent⟩
      exact ⟨hb', hkept hk, fun hc => And.imp_left hinner (hsilent hc)⟩

/-- If something inside is not silent, nothing outside reads the local. -/
theorem Counterparts.eq_of_not (hchanges : changes) (hinner : ¬ inner)
    (h : Counterparts changes g x value kept inner bs bs') : bs' = bs ∧ ∀ b ∈ bs, b.Within x := by
  induction bs generalizing inner bs' with
  | nil =>
    cases bs' with
    | nil => exact ⟨rfl, fun _ hb => absurd hb List.not_mem_nil⟩
    | cons b' rest' => exact absurd h id
  | cons b rest ih =>
    cases bs' with
    | nil => exact absurd h id
    | cons b' rest' =>
      obtain ⟨⟨hwithin, hb⟩, hrest⟩ := h
      obtain ⟨rfl, hall⟩ := ih (fun hand => hinner hand.1) hrest
      rcases hb with rfl | ⟨-, -, hsilent⟩
      · exact ⟨rfl, List.forall_mem_cons.2 ⟨hwithin, hall⟩⟩
      · exact absurd (hsilent hchanges).1 hinner

/-- Blocks that are equal are counterparts, whatever the local holds. -/
theorem Counterparts.refl (h : ∀ b ∈ bs, b.Within x) :
    Counterparts changes g x value kept inner bs bs := by
  induction bs generalizing inner with
  | nil => trivial
  | cons b rest ih =>
    exact ⟨⟨h b List.mem_cons_self, .inl rfl⟩, ih fun b hb => h b (List.mem_cons_of_mem _ hb)⟩

theorem BlockGraph.block_shareAt (g : BlockGraph) (k i slot : Nat) (value : Scalar) :
    (g.shareAt k slot value).block i = g.block i ∨
      i = k ∧ (g.shareAt k slot value).block i = (g.block k).shareValue slot value := by
  simp only [block, shareAt, Array.getD_eq_getD_getElem?, Array.getElem?_setIfInBounds]
  by_cases hik : k = i
  · subst hik
    rw [if_pos rfl]
    by_cases hlt : k < g.blocks.size
    · rw [if_pos hlt]
      exact .inr ⟨rfl, rfl⟩
    · rw [if_neg hlt, Array.getElem?_eq_none (Nat.le_of_not_lt hlt)]
      exact .inl rfl
  · rw [if_neg hik]
    exact .inl rfl

theorem Poised.step (hvalue : value.Fixed) (h : Poised changes g x value k inputs w v)
    (g' : BlockGraph) : v.step g' inputs = .next (v.keeping g k x.locals value inputs) := by
  simp only [Walk.step, Walk.keeping, h.sharing, Block.shareValue, hvalue.eval]

theorem Shared.enter (hg : g.Within x) (hquiet : changes → (g.block k).CallsSilently g)
    {outputs : Array Float} {tape : Tape}
    (hcalls : Counterparts changes g x value (locals' x.locals = value.fixedValue inputs)
      (True ∧ g.SilentFrom (g.block i)) calls calls')
    (hlocals : ∀ i < x.locals, locals' i = locals i) :
    let w' : Walk := ⟨g.block i, calls, locals, outputs, tape⟩
    let v' : Walk := ⟨(g.shareAt k x.locals value).block i, calls', locals', outputs, tape⟩
    Shared changes g x value inputs w' v' ∨ i = k ∧ Poised changes g x value k inputs w' v' := by
  rcases g.block_shareAt k i x.locals value with hplain | ⟨rfl, hshared⟩
  · rw [hplain]
    exact .inl ⟨⟨⟨hg i, .inl rfl⟩, hcalls⟩, hlocals, rfl, rfl⟩
  · refine .inr ⟨rfl, rfl, hshared, ⟨⟨hg i, .inr ⟨rfl, Function.update_self .., fun hc =>
      ⟨trivial, hquiet hc⟩⟩⟩, ?_⟩, ?_, rfl, rfl⟩
    · exact hcalls.mono (fun _ => Function.update_self ..) id
    · intro j hj
      exact (Function.update_of_ne (Nat.ne_of_lt hj) ..).trans (hlocals j hj)

theorem Shared.start (hg : g.Within x) (hquiet : changes → (g.block k).CallsSilently g)
    (inputs outputs : Array Float) (random : Random) :
    let w : Walk := .start g outputs random
    let v : Walk := .start (g.shareAt k x.locals value) outputs random
    Shared changes g x value inputs w v ∨
      BlockGraph.entry = k ∧ Poised changes g x value k inputs w v := by
  have hcalls : Counterparts changes g x value (0.0 = value.fixedValue inputs)
      (True ∧ g.SilentFrom (g.block BlockGraph.entry)) [] [] := trivial
  exact Shared.enter hg hquiet hcalls fun _ _ => rfl

/-- The current blocks differ in expressions only, and these have the same values. -/
theorem Shared.current (hvalue : value.Fixed) (h : Shared changes g x value inputs w v) :
    ∃ f : Scalar → Scalar, v.block = w.block.mapValues f ∧
      (∀ e : Scalar, e.Within x → ∀ r, (f e).eval inputs v.locals r = e.eval inputs w.locals r) ∧
      ∀ (inner : Prop) (steps : List (Step × Span)), (∀ s ∈ steps, s ∈ w.block.steps) →
        (w.block.CallsSilently g → inner) →
        Counterpart changes g x value (v.locals x.locals = value.fixedValue inputs) inner
          { w.block with steps } (Block.mapValues f { w.block with steps }) := by
  obtain ⟨⟨hwithin, hblock⟩, -⟩ := h.counterparts
  have hsteps : ∀ steps, (∀ s ∈ steps, s ∈ w.block.steps) →
      Block.Within x { w.block with steps } :=
    fun steps hsub => ⟨fun s hs => hwithin.steps s (hsub s hs), hwithin.exit⟩
  rcases hblock with heq | ⟨heq, hkept, hsilent⟩
  · refine ⟨id, ?_, ?_, ?_⟩
    · rw [heq, Block.mapValues_id]
    · intro e he r
      exact Scalar.eval_congr he h.locals r
    · intro inner steps hsub _
      exact ⟨hsteps steps hsub, .inl (Block.mapValues_id _)⟩
  · refine ⟨.replace value x.locals, heq, ?_, ?_⟩
    · intro e he r
      exact Scalar.eval_replace hvalue he h.locals hkept r
    · intro inner steps hsub hinner
      refine ⟨hsteps steps hsub, .inr ⟨rfl, hkept, fun hc => ⟨hinner (hsilent hc).2, ?_⟩⟩⟩
      intro c span hcall
      exact (hsilent hc).2 c span (hsub _ hcall)

/-- What a walk with a shared value does while the other one takes a step. -/
def SharedReaction (changes : Prop) (g : BlockGraph) (x : Extent) (value : Scalar) (k : Nat)
    (inputs : Array Float) (w v : Walk) : Walk.Reaction → Prop
  | .next w' => ∃ u, v.step (g.shareAt k x.locals value) inputs = .next u ∧
      (Shared changes g x value inputs w' u ∨
        (w.turn inputs).entered = [k] ∧ Poised changes g x value k inputs w' u)
  | .stop signal w' => ∃ u, v.step (g.shareAt k x.locals value) inputs = .stop signal u ∧
      Shared changes g x value inputs w' u ∧
      (changes → signal ≠ .halt → ∀ inputs' outputs',
        Shared changes g x value inputs' { w' with outputs := outputs' }
          { u with outputs := outputs' })

/-- Both walks stop in a block that waits or pauses. Nothing that is left to be done then reads the
local, so the inputs may change. -/
theorem Shared.suspend {b : Block} (hb : b.exit.suspends)
    (hrest : Counterparts changes g x value (locals' x.locals = value.fixedValue inputs)
      (True ∧ g.SilentFrom b) calls calls') (hlocals : ∀ i < x.locals, locals' i = locals i)
    (next : Nat) (outputs : Array Float) (tape : Tape) :
    Shared changes g x value inputs ⟨{ exit := .jump next }, calls, locals, outputs, tape⟩
        ⟨{ exit := .jump next }, calls', locals', outputs, tape⟩ ∧
      (changes → ∀ inputs' outputs', Shared changes g x value inputs'
        ⟨{ exit := .jump next }, calls, locals, outputs', tape⟩
        ⟨{ exit := .jump next }, calls', locals', outputs', tape⟩) := by
  have hloud : ¬ (True ∧ g.SilentFrom b) := by
    rintro ⟨-, hsilent⟩
    rw [hsilent.exit] at hb
    cases hb
  have hjump : Block.Within x { exit := .jump next } :=
    ⟨fun _ hs => absurd hs List.not_mem_nil, trivial⟩
  constructor
  · exact ⟨⟨⟨hjump, .inl rfl⟩, hrest.mono id fun h => absurd h hloud⟩, hlocals, rfl, rfl⟩
  · intro hchanges inputs' outputs'
    obtain ⟨rfl, hall⟩ := hrest.eq_of_not hchanges hloud
    exact ⟨⟨⟨hjump, .inl rfl⟩, .refl hall⟩, hlocals, rfl, rfl⟩

/-- One step of both walks. -/
theorem Shared.step (hvalue : value.Fixed) (hg : g.Within x)
    (hquiet : changes → (g.block k).CallsSilently g)
    (h : Shared changes g x value inputs w v) :
    SharedReaction changes g x value k inputs w v (w.step g inputs) := by
  obtain ⟨f, hblock, heval, htail⟩ := h.current hvalue
  obtain ⟨⟨hwithin, -⟩, hrest⟩ := h.counterparts
  have hlocals := h.locals
  obtain ⟨⟨steps, exit, span⟩, calls, locals, outputs, tape⟩ := w
  obtain ⟨block', calls', locals', outputs', tape'⟩ := v
  obtain rfl : outputs' = outputs := h.outputs
  obtain rfl : tape' = tape := h.tape
  obtain rfl : block' = Block.mapValues f ⟨steps, exit, span⟩ := hblock
  dsimp only at hlocals heval hrest htail
  -- Entering a block that the current one leads to.
  have hto {i : Nat} (tape : Tape) (hi : i ∈ Block.targets ⟨steps, exit, span⟩) {turn : Turn}
      (hturn : turn.entered = [i]) :
      let w' : Walk := ⟨g.block i, calls, locals, outputs', tape⟩
      let v' : Walk := ⟨(g.shareAt k x.locals value).block i, calls', locals', outputs', tape⟩
      Shared changes g x value inputs w' v' ∨
        turn.entered = [k] ∧ Poised changes g x value k inputs w' v' := by
    refine (Shared.enter hg hquiet (hrest.mono id fun hsilent =>
      ⟨trivial, (hsilent.2.targets i hi).block⟩) hlocals).imp_right ?_
    rintro ⟨rfl, hpoised⟩
    exact ⟨hturn, hpoised⟩
  cases steps with
  | nil =>
    cases exit with
    | jump b => exact ⟨_, rfl, hto _ (Block.mem_targets_of_exit List.mem_cons_self) rfl⟩
    | branch c t e =>
      refine ⟨_, rfl, ?_⟩
      simp only [heval c hwithin.exit]
      refine hto _ (Block.mem_targets_of_exit ?_) rfl
      split
      · exact List.mem_cons_self
      · exact List.mem_cons_of_mem _ List.mem_cons_self
    | ret =>
      cases calls with
      | nil =>
        cases calls' with
        | nil => exact ⟨_, rfl, h, fun _ hsignal => absurd rfl hsignal⟩
        | cons b' rest' => exact absurd hrest id
      | cons b rest =>
        cases calls' with
        | nil => exact absurd hrest id
        | cons b' rest' =>
          obtain ⟨⟨hb, hcases⟩, hrest⟩ := hrest
          refine ⟨_, rfl, .inl ⟨⟨⟨hb, hcases.imp id ?_⟩, ?_⟩, hlocals, rfl, rfl⟩⟩
          · rintro ⟨hb', hkept, hsilent⟩
            exact ⟨hb', hkept, fun hc => ⟨trivial, (hsilent hc).2⟩⟩
          · exact hrest.mono id fun hsilent => ⟨trivial, hsilent.2⟩
    | halt => exact ⟨_, rfl, h, fun _ hsignal => absurd rfl hsignal⟩
    | wait seconds next =>
      obtain ⟨hshared, hresume⟩ := Shared.suspend rfl hrest hlocals next outputs'
        (seconds.eval inputs locals tape').2
      refine ⟨_, ?_, hshared, fun hc _ => hresume hc⟩
      simp only [Walk.step, Walk.leave, Block.mapValues, Exit.mapValue, List.map_nil,
        heval seconds hwithin.exit tape']
    | pause point defaultBlock =>
      obtain ⟨hshared, hresume⟩ := Shared.suspend rfl hrest hlocals defaultBlock outputs' tape'
      exact ⟨_, rfl, hshared, fun hc _ => hresume hc⟩
  | cons head rest =>
    obtain ⟨s, stepSpan⟩ := head
    have hsub : ∀ s' ∈ rest, s' ∈ (s, stepSpan) :: rest := fun _ hs => List.mem_cons_of_mem _ hs
    have hnext := htail True rest hsub fun _ => trivial
    have hsilent : True ∧ g.SilentFrom ⟨(s, stepSpan) :: rest, exit, span⟩ →
        True ∧ g.SilentFrom ⟨rest, exit, span⟩ := And.imp_right fun hsilent => hsilent.tail rfl
    cases s with
    | setLocal slot e =>
      obtain ⟨hslot, he⟩ := hwithin.steps _ List.mem_cons_self
      have hother : x.locals ≠ slot := Nat.ne_of_gt hslot
      have hvalue_eq := heval e he tape'
      refine ⟨⟨Block.mapValues f ⟨rest, exit, span⟩, calls',
        Function.update locals' slot (e.eval inputs locals tape').1, outputs',
        (e.eval inputs locals tape').2⟩, ?_, .inl ⟨⟨?_, ?_⟩, ?_, rfl, rfl⟩⟩
      · simp only [Walk.step, Block.mapValues, Step.mapValue, List.map_cons, hvalue_eq]
      · simp only [Function.update_of_ne hother]
        exact hnext
      · simp only [Function.update_of_ne hother]
        exact hrest.mono id hsilent
      · intro i hi
        dsimp only
        by_cases hslot : i = slot
        · rw [hslot, Function.update_self, Function.update_self]
        · rw [Function.update_of_ne hslot, Function.update_of_ne hslot]
          exact hlocals i hi
    | setOutput slot e =>
      obtain ⟨-, he⟩ := hwithin.steps _ List.mem_cons_self
      have hvalue_eq := heval e he tape'
      refine ⟨⟨Block.mapValues f ⟨rest, exit, span⟩, calls', locals',
        outputs'.setIfInBounds slot (e.eval inputs locals tape').1,
        (e.eval inputs locals tape').2⟩, ?_, .inl ⟨⟨hnext, hrest.mono id hsilent⟩, hlocals, rfl,
          rfl⟩⟩
      simp only [Walk.step, Block.mapValues, Step.mapValue, List.map_cons, hvalue_eq]
    | call b =>
      have hb : b ∈ Block.targets ⟨(.call b, stepSpan) :: rest, exit, span⟩ :=
        Block.mem_targets_of_call List.mem_cons_self
      have hcalls : Counterparts changes g x value (locals' x.locals = value.fixedValue inputs)
          (True ∧ g.SilentFrom (g.block b)) (⟨rest, exit, span⟩ :: calls)
          (Block.mapValues f ⟨rest, exit, span⟩ :: calls') :=
        ⟨htail _ rest hsub fun hcalls => ⟨trivial, (hcalls b _ List.mem_cons_self).block⟩,
          hrest.mono id fun hs => ⟨⟨trivial, (hs.2.targets b hb).block⟩, (hsilent hs).2⟩⟩
      refine ⟨_, rfl, (Shared.enter hg hquiet hcalls hlocals).imp_right ?_⟩
      rintro ⟨rfl, hpoised⟩
      exact ⟨rfl, hpoised⟩

theorem NearlyShared.run (hvalue : value.Fixed) (hg : g.Within x)
    (hquiet : changes → (g.block k).CallsSilently g) {skipWaits : Bool} {n : Nat} {w' : Walk}
    {signal : Signal} (h : NearlyShared changes g x value k inputs w v)
    (hruns : Walk.Runs g inputs skipWaits n w signal w') :
    ∃ n' v', Walk.Runs (g.shareAt k x.locals value) inputs skipWaits n' v signal v' ∧
      Shared changes g x value inputs w' v' ∧
      (changes → signal ≠ .halt → ∀ inputs' outputs',
        Shared changes g x value inputs' { w' with outputs := outputs' }
          { v' with outputs := outputs' }) := by
  -- It is enough to follow walks of which the second has its value in place.
  suffices hshared : ∀ {v}, Shared changes g x value inputs w v →
      ∃ n' v', Walk.Runs (g.shareAt k x.locals value) inputs skipWaits n' v signal v' ∧
        Shared changes g x value inputs w' v' ∧
        (changes → signal ≠ .halt → ∀ inputs' outputs',
          Shared changes g x value inputs' { w' with outputs := outputs' }
            { v' with outputs := outputs' }) by
    rcases h with h | h
    · exact hshared h
    · obtain ⟨n', v', hruns', hrel⟩ := hshared h.shared
      exact ⟨n' + 1, v', .step (h.step hvalue _) hruns', hrel⟩
  clear h
  induction hruns with
  | stop hs hwait =>
    intro v h
    have hstep := h.step hvalue hg hquiet
    rw [hs] at hstep
    obtain ⟨u, hu, hrel⟩ := hstep
    exact ⟨1, u, .stop hu hwait, hrel⟩
  | step hs _ ih =>
    intro v h
    have hstep := h.step hvalue hg hquiet
    rw [hs] at hstep
    obtain ⟨u, hu, hnear⟩ := hstep
    rcases hnear with hnear | ⟨-, hpoised⟩
    · obtain ⟨n', v', hruns', hrel⟩ := ih hnear
      exact ⟨n' + 1, v', .step hu hruns', hrel⟩
    · obtain ⟨n', v', hruns', hrel⟩ := ih hpoised.shared
      exact ⟨n' + 1 + 1, v', .step hu (.step (hpoised.step hvalue _) hruns'), hrel⟩
  | pass hskip hs _ ih =>
    intro v h
    have hstep := h.step hvalue hg hquiet
    rw [hs] at hstep
    obtain ⟨u, hu, hnear, -⟩ := hstep
    obtain ⟨n', v', hruns', hrel⟩ := ih hnear
    exact ⟨n' + 1, v', .pass hskip hu hruns', hrel⟩

theorem carried_shareAt (hvalue : value.Fixed) (hg : g.Within x)
    (hquiet : changes → (g.block k).CallsSilently g) :
    Carried changes g (g.shareAt k x.locals value) := by
  refine ⟨NearlyShared changes g x value k, ?_, ?_, ?_⟩
  · intro inputs outputs random
    exact (Shared.start hg hquiet inputs outputs random).imp_right And.right
  · rintro inputs w v (h | h)
    · exact ⟨h.outputs, h.tape⟩
    · exact ⟨h.shared.outputs, h.shared.tape⟩
  · intro inputs skipWaits n w w' v signal h hruns
    obtain ⟨n', v', hruns', hshared, hresume⟩ := h.run hvalue hg hquiet hruns
    refine ⟨n', v', hruns', .inl hshared, ?_⟩
    rintro inputs' outputs' (rfl | ⟨hc, hsignal⟩)
    · exact .inl ⟨hshared.counterparts, hshared.locals, rfl, hshared.tape⟩
    · exact .inl (hresume hc hsignal inputs' outputs')

end

/-! ## Which values are shared -/

namespace Scalar

variable {x : Extent} {e a : Scalar}

/-- The expressions that an operator is applied to. -/
def operands : Scalar → List Scalar
  | const _ | inputSlot _ | localSlot _ | random => []
  | unary _ a => [a]
  | binary _ a b => [a, b]
  | ternary _ a b c | select a b c => [a, b, c]

/-- One expression occurs in another. -/
inductive PartOf (a : Scalar) : Scalar → Prop
  | self : PartOf a a
  | operand {b e : Scalar} : b ∈ e.operands → PartOf a b → PartOf a e

theorem Within.operand (h : e.Within x) (ha : a ∈ e.operands) :
    a.Within x := by
  cases e with
  | const _ | inputSlot _ | localSlot _ | random => cases ha
  | unary f b =>
    cases List.mem_singleton.1 ha
    exact h
  | binary f b c =>
    rcases List.mem_pair.1 ha with rfl | rfl
    exacts [h.1, h.2]
  | ternary f b c d | select b c d =>
    rcases List.mem_cons.1 ha with rfl | ha
    · exact h.1
    · rcases List.mem_pair.1 ha with rfl | rfl
      exacts [h.2.1, h.2.2]

theorem PartOf.within (h : a.PartOf e) (he : e.Within x) :
    a.Within x := by
  induction h with
  | self => exact he
  | operand hb _ ih => exact ih (he.operand hb)

/-- An operator applied to operands that are fixed by the inputs, somewhere in an expression. -/
structure FoundIn (e a : Scalar) : Prop where
  fixed : a.Fixed
  operands : a.operands ≠ []
  part : a.PartOf e

/-- The parts of an expression, each before its own parts. -/
def parts : Scalar → List Scalar
  | unary f a => unary f a :: a.parts
  | binary f a b => binary f a b :: (a.parts ++ b.parts)
  | ternary f a b c => ternary f a b c :: (a.parts ++ (b.parts ++ c.parts))
  | select a b c => select a b c :: (a.parts ++ (b.parts ++ c.parts))
  | e => [e]

def isFixed (e : Scalar) : Bool :=
  e.isPure && !e.readsLocals

/-- An expression of inputs and constants only, with an operator. -/
def isShareable (e : Scalar) : Bool :=
  e.isFixed && decide (2 ≤ e.size)

theorem isFixed_iff : e.isFixed = true ↔ e.Fixed := by
  rw [isFixed, Bool.and_eq_true, Bool.not_eq_true']
  exact ⟨fun h => ⟨h.1, h.2⟩, fun h => ⟨h.1, h.2⟩⟩

theorem isFixed_of_operands (h : e.operands ≠ []) :
    e.isFixed = e.operands.all isFixed := by
  cases e with
  | const _ | inputSlot _ | localSlot _ | random => exact absurd rfl h
  | unary f a => simp [isFixed, isPure, readsLocals, operands]
  | binary f a b | ternary f a b c | select a b c =>
    simp only [isFixed, isPure, readsLocals, operands, List.all, Bool.not_or, Bool.and_true]
    ac_rfl

theorem parts_eq (e : Scalar) : e.parts = e :: e.operands.flatMap parts := by
  cases e <;> simp [parts, operands]

/-- What holds of an expression if it holds of its operands holds of every expression. -/
theorem operands_induction {P : Scalar → Prop} (h : ∀ e, (∀ a ∈ e.operands, P a) → P e)
    (e : Scalar) : P e := by
  induction e with
  | const _ | inputSlot _ | localSlot _ | random => exact h _ nofun
  | unary f a iha => exact h _ (by simpa [operands] using iha)
  | binary f a b iha ihb => exact h _ (by simpa [operands] using ⟨iha, ihb⟩)
  | ternary f a b c iha ihb ihc | select a b c iha ihb ihc =>
    exact h _ (by simpa [operands] using ⟨iha, ihb, ihc⟩)

theorem size_pos (e : Scalar) : 0 < e.size := by
  cases e <;> exact Nat.succ_pos _

theorem two_le_size : 2 ≤ e.size ↔ e.operands ≠ [] := by
  cases e with
  | const _ | inputSlot _ | localSlot _ | random => simp [size, operands]
  | unary f a | binary f a _ | ternary f a _ _ | select a _ _ =>
    have := a.size_pos
    simp only [size, operands, ne_eq, List.cons_ne_nil, not_false_iff, iff_true]
    omega

theorem partOf_of_mem_parts (h : a ∈ e.parts) : a.PartOf e := by
  induction e using operands_induction with
  | h e ih =>
    rw [parts_eq] at h
    rcases List.mem_cons.1 h with rfl | h
    · exact .self
    · obtain ⟨b, hb, ha⟩ := List.mem_flatMap.1 h
      exact .operand hb (ih b hb ha)

/-- An operator comes in front of the candidates among its parts, if it is one. -/
theorem shareable_cons (h : e.operands ≠ []) (parts : List Scalar) (rest : List (Nat × Scalar)) :
    ((e :: parts).filter isShareable).map (fun a => (a.size, a)) ++ rest =
      if e.operands.all isFixed then
        (e.size, e) :: ((parts.filter isShareable).map (fun a => (a.size, a)) ++ rest)
      else (parts.filter isShareable).map (fun a => (a.size, a)) ++ rest := by
  have hshareable : e.isShareable = e.operands.all isFixed := by
    rw [isShareable, decide_eq_true (two_le_size.2 h), Bool.and_true, isFixed_of_operands h]
  rw [List.filter_cons, hshareable]
  split <;> rfl

/-- Candidates are the parts that can be shared, with their sizes. -/
theorem candidates_eq (e : Scalar) (rest : List (Nat × Scalar)) :
    e.candidates rest = (e.size, e.isFixed,
      (e.parts.filter isShareable).map (fun a => (a.size, a)) ++ rest) := by
  induction e generalizing rest with
  | const _ | inputSlot _ | localSlot _ | random => rfl
  | unary f a iha =>
    rw [parts, shareable_cons, isFixed_of_operands]
    · simp only [candidates, iha, size, operands, List.all, Bool.and_true]
    all_goals exact List.cons_ne_nil _ _
  | binary f a b iha ihb =>
    rw [parts, shareable_cons, isFixed_of_operands]
    · simp only [candidates, iha, ihb, size, operands, List.all, List.filter_append,
        List.map_append, List.append_assoc, Bool.and_true]
    all_goals exact List.cons_ne_nil _ _
  | ternary f a b c iha ihb ihc | select a b c iha ihb ihc =>
    rw [parts, shareable_cons, isFixed_of_operands]
    · simp only [candidates, iha, ihb, ihc, size, operands, List.all, List.filter_append,
        List.map_append, List.append_assoc, Bool.and_true, Bool.and_assoc]
    all_goals exact List.cons_ne_nil _ _

theorem Within.replace (he : e.Within x) (value : Scalar) :
    (replace value x.locals e).Within { x with locals := x.locals + 1 } := by
  have hle : x.Le { x with locals := x.locals + 1 } :=
    ⟨Nat.le_refl _, Nat.le_refl _, Nat.le_succ _⟩
  have hslot : (localSlot x.locals).Within { x with locals := x.locals + 1 } :=
    Nat.lt_succ_self x.locals
  induction e with
  | const v | inputSlot i | localSlot i =>
    unfold Scalar.replace; split; exacts [hslot, hle.scalar he]
  | random => unfold Scalar.replace; split; exacts [hslot, hle.scalar he]
  | unary f a iha => unfold Scalar.replace; split; exacts [hslot, iha he]
  | binary f a b iha ihb => unfold Scalar.replace; split; exacts [hslot, ⟨iha he.1, ihb he.2⟩]
  | ternary f a b c iha ihb ihc | select a b c iha ihb ihc =>
    unfold Scalar.replace
    split
    exacts [hslot, ⟨iha he.1, ihb he.2.1, ihc he.2.2⟩]

end Scalar

namespace Block

variable {b : Block}
variable {x : Extent}

theorem Within.value (hb : b.Within x) {e : Scalar} (he : e ∈ b.values) : e.Within x := by
  rcases List.mem_append.1 he with he | he
  · obtain ⟨⟨s, span⟩, hs, hse⟩ := List.mem_filterMap.1 he
    have hwithin := hb.steps _ hs
    cases s with
    | setLocal slot value | setOutput slot value =>
      cases hse
      exact hwithin.2
    | call c => cases hse
  · have hwithin := hb.exit
    cases hexit : b.exit with
    | branch c t e' | wait c t =>
      rw [hexit] at he hwithin
      rw [List.mem_singleton.1 he]
      exact hwithin
    | jump i | ret | halt | pause point defaultBlock => rw [hexit] at he; cases he

/-- The parts of a block's expressions. -/
def parts (b : Block) : List Scalar :=
  b.values.flatMap Scalar.parts

theorem candidates_eq (b : Block) :
    b.candidates = (b.parts.filter Scalar.isShareable).map fun a => (a.size, a) := by
  unfold candidates parts
  induction b.values with
  | nil => rfl
  | cons e rest ih =>
    rw [List.foldr_cons, ih, Scalar.candidates_eq, List.flatMap_cons, List.filter_append,
      List.map_append]

theorem candidates_found {p : Nat × Scalar} (hp : p ∈ b.candidates) :
    ∃ e ∈ b.values, Scalar.FoundIn e p.2 := by
  rw [candidates_eq] at hp
  obtain ⟨a, ha, rfl⟩ := List.mem_map.1 hp
  obtain ⟨hpart, hshareable⟩ := List.mem_filter.1 ha
  obtain ⟨e, he, hpart⟩ := List.mem_flatMap.1 hpart
  rw [Scalar.isShareable, Bool.and_eq_true, decide_eq_true_eq, Scalar.isFixed_iff] at hshareable
  exact ⟨e, he, hshareable.1, Scalar.two_le_size.1 hshareable.2, Scalar.partOf_of_mem_parts hpart⟩

theorem largestRepeated?_cons (best : Option (Nat × Scalar)) (size : Nat) (e : Scalar)
    (rest : List (Nat × Scalar)) :
    largestRepeated? best ((size, e) :: rest) =
      if best.all (·.1 < size) && rest.any (fun p => p.1 == size && e.same p.2) then
        largestRepeated? (some (size, e)) rest
      else largestRepeated? best rest := by
  cases best <;> rfl

/-- A value is chosen only if it comes twice. -/
theorem repeated_of_largestRepeated? {best : Option (Nat × Scalar)}
    {candidates : List (Nat × Scalar)} {value : Scalar}
    (h : largestRepeated? best candidates = some value) :
    (∃ n, best = some (n, value)) ∨ 2 ≤ candidates.countP (fun p => value.same p.2) := by
  induction candidates generalizing best with
  | nil =>
    obtain ⟨⟨n, e⟩, hbest, rfl⟩ := Option.map_eq_some_iff.1 h
    exact .inl ⟨n, hbest⟩
  | cons p rest ih =>
    obtain ⟨size, e⟩ := p
    rw [List.countP_cons]
    rw [largestRepeated?_cons] at h
    split at h
    next hrepeats =>
      obtain ⟨_, ⟨⟩⟩ | htwice := ih h
      · rw [Bool.and_eq_true, List.any_eq_true] at hrepeats
        obtain ⟨-, p, hp, hsame⟩ := hrepeats
        have hlater : 0 < rest.countP fun p => value.same p.2 :=
          List.countP_pos_iff.2 ⟨p, hp, (Bool.and_eq_true _ _ ▸ hsame).2⟩
        rw [if_pos value.same_self]
        exact .inr (Nat.succ_le_succ hlater)
      · exact .inr (Nat.le_add_right_of_le htwice)
    · exact (ih h).imp_right Nat.le_add_right_of_le

/-- The value that a block would share next. -/
def nextShared? (b : Block) : Option Scalar :=
  largestRepeated? none b.candidates

theorem nextShared?_found {value : Scalar} (h : b.nextShared? = some value) :
    ∃ e ∈ b.values, Scalar.FoundIn e value := by
  obtain ⟨n, ⟨⟩⟩ | htwice := repeated_of_largestRepeated? h
  obtain ⟨p, hp, hsame⟩ := List.countP_pos_iff.1 (Nat.zero_lt_of_lt htwice)
  rw [Scalar.eq_of_same hsame]
  exact candidates_found hp

theorem Within.shareValue {value : Scalar} (hb : b.Within x) (hvalue : value.Within x) :
    (b.shareValue x.locals value).Within { x with locals := x.locals + 1 } := by
  have hle : x.Le { x with locals := x.locals + 1 } :=
    ⟨Nat.le_refl _, Nat.le_refl _, Nat.le_succ _⟩
  have hrest := hb.mapValues hle fun e he => he.replace value
  refine ⟨?_, hrest.exit⟩
  intro s hs
  rcases List.mem_cons.1 hs with rfl | hs
  · exact ⟨Nat.lt_succ_self x.locals, hle.scalar hvalue⟩
  · exact hrest.steps s hs

end Block

/-! ## The whole pass -/

namespace BlockGraph

/-- Blocks that share values call only blocks that neither wait nor pause. -/
def SharesQuietly (g : BlockGraph) : Prop :=
  ∀ i, (g.block i).nextShared?.isSome → (g.block i).CallsSilently g

/-- The slots within an extent, except that the locals are those of the graph. -/
def extent (x : Extent) (g : BlockGraph) : Extent :=
  { x with locals := g.localCount }

/-- Only where blocks lead to and how they end matters. -/
theorem Silent.of_same {g : BlockGraph} (htargets : ∀ i, (g'.block i).targets = (g.block i).targets)
    (hexit : ∀ i, (g'.block i).exit.suspends = (g.block i).exit.suspends) (h : g.Silent i) :
    g'.Silent i := by
  intro j hj
  have hleads : g.Leads i j := by
    induction hj with
    | refl i => exact .refl i
    | step hmem _ ih =>
      rw [htargets] at hmem
      exact .step hmem (ih fun k hk => h k (.step hmem hk))
  rw [hexit]
  exact h j hleads

end BlockGraph

namespace Block

theorem targets_mapValues (b : Block) (f : Scalar → Scalar) :
    (b.mapValues f).targets = b.targets := by
  have hstep : (fun s : Step × Span => s.1.target?) ∘
      (fun s : Step × Span => (s.1.mapValue f, s.2)) = fun s => s.1.target? := by
    funext s
    obtain ⟨s, span⟩ := s
    cases s <;> rfl
  have hexit : (b.exit.mapValue f).targets = b.exit.targets := by
    cases b.exit <;> rfl
  show (b.steps.map fun s => (s.1.mapValue f, s.2)).filterMap (fun s => s.1.target?) ++
    (b.exit.mapValue f).targets = b.targets
  rw [List.filterMap_map, hstep, hexit]
  rfl

theorem suspends_mapValue (e : Exit) (f : Scalar → Scalar) :
    (e.mapValue f).suspends = e.suspends := by
  cases e <;> rfl

/-- Sharing adds no call. -/
theorem call_of_shareValue {b : Block} {value : Scalar}
    (h : (Step.call c, span) ∈ (b.shareValue slot value).steps) :
    (Step.call c, span) ∈ b.steps := by
  rcases List.mem_cons.1 h with h | h
  · cases h
  · obtain ⟨⟨s, span'⟩, hs, heq⟩ := List.mem_map.1 h
    cases s with
    | call c' =>
      cases heq
      exact hs
    | setLocal slot value | setOutput slot value => cases heq

end Block

namespace BlockGraph

variable {changes : Prop} {x : Extent} {g : BlockGraph} {k : Nat} {P : BlockGraph → Prop}

theorem Silent.shareAt {value : Scalar} (h : g.Silent i) : (g.shareAt k slot value).Silent i := by
  refine h.of_same ?_ ?_
  · intro i
    rcases g.block_shareAt k i slot value with hplain | ⟨rfl, hshared⟩
    · rw [hplain]
    · rw [hshared]
      exact Block.targets_mapValues ..
  · intro i
    rcases g.block_shareAt k i slot value with hplain | ⟨rfl, hshared⟩
    · rw [hplain]
    · rw [hshared]
      exact Block.suspends_mapValue ..

/-- Sharing a value where values are shared quietly leaves the others shared quietly. -/
theorem SharesQuietly.shareAt (h : g.SharesQuietly) {value : Scalar}
    (hnext : (g.block k).nextShared? = some value) : (g.shareAt k slot value).SharesQuietly := by
  intro i hi c span hcall
  rcases g.block_shareAt k i slot value with hplain | ⟨rfl, hshared⟩
  · rw [hplain] at hi hcall
    exact (h i hi c span hcall).shareAt
  · rw [hshared] at hcall
    have hsome : (g.block i).nextShared?.isSome := by rw [hnext]; rfl
    exact (h i hsome c span (Block.call_of_shareValue hcall)).shareAt

theorem Within.shareAt (hg : g.Within (extent x g)) {value : Scalar}
    (hvalue : value.Within (extent x g)) :
    (g.shareAt k g.localCount value).Within (extent x (g.shareAt k g.localCount value)) := by
  have hle : (extent x g).Le { extent x g with locals := g.localCount + 1 } :=
    ⟨Nat.le_refl _, Nat.le_refl _, Nat.le_succ _⟩
  intro i
  rcases g.block_shareAt k i g.localCount value with hplain | ⟨rfl, hshared⟩
  · rw [hplain]
    exact hle.block (hg i)
  · rw [hshared]
    exact (hg i).shareValue hvalue

theorem Within.shareNext (hg : g.Within (extent x g)) {value : Scalar}
    (hnext : (g.block k).nextShared? = some value) :
    (g.shareAt k g.localCount value).Within (extent x (g.shareAt k g.localCount value)) := by
  obtain ⟨e, he, hfound⟩ := Block.nextShared?_found hnext
  exact hg.shareAt (hfound.part.within ((hg k).value he))

/-- The graph with one block in place of another, and a number of locals. -/
def withBlock (g : BlockGraph) (k : Nat) (b : Nat × Block) : BlockGraph :=
  { g with blocks := g.blocks.setIfInBounds k b.2, localCount := b.1 }

theorem withBlock_self (g : BlockGraph) (k : Nat) :
    g.withBlock k (g.localCount, g.block k) = g := by
  have hblocks : g.blocks.setIfInBounds k (g.block k) = g.blocks := by
    refine Array.ext_getElem? fun i => ?_
    rw [Array.getElem?_setIfInBounds, block, Array.getD_eq_getD_getElem?]
    split
    · next hk =>
      subst hk
      split
      · next hlt => rw [Array.getElem?_eq_getElem hlt, Option.getD_some]
      · next hlt => rw [Array.getElem?_eq_none (Nat.le_of_not_lt hlt)]
    · rfl
  rw [withBlock, hblocks]

/-- Values can only be shared in a block that is there. -/
theorem lt_of_nextShared? {value : Scalar} (h : (g.block k).nextShared? = some value) :
    k < g.blocks.size := by
  by_cases hlt : k < g.blocks.size
  · exact hlt
  · have hnone : g.block k = {} := by
      rw [block, Array.getD_eq_getD_getElem?, Array.getElem?_eq_none (Nat.le_of_not_lt hlt)]
      rfl
    rw [hnone] at h
    cases h

/-- What each round of sharing keeps. -/
structure Improves (changes : Prop) (x : Extent) (g g' : BlockGraph) : Prop where
  carried : Carried changes g g'
  within : g'.Within (extent x g')
  quiet : changes → g'.SharesQuietly

theorem Improves.shareAt (h : Improves changes x g g') {value : Scalar}
    (hnext : (g'.block k).nextShared? = some value) :
    Improves changes x g (g'.shareAt k g'.localCount value) := by
  obtain ⟨e, he, hfound⟩ := Block.nextShared?_found hnext
  have hsome : (g'.block k).nextShared?.isSome := by rw [hnext]; rfl
  have hcarried : Carried changes g' (g'.shareAt k g'.localCount value) :=
    carried_shareAt (x := extent x g') hfound.fixed h.within fun hc => h.quiet hc k hsome
  exact ⟨h.carried.trans hcarried, h.within.shareNext hnext,
    fun hc => (h.quiet hc).shareAt hnext⟩

/-- A block without repeated values stays as it is. -/
theorem withBlock_of_none (h : (g.block k).nextShared? = none) (fuel : Nat) :
    g.withBlock k ((g.block k).shareWithin fuel g.localCount) = g := by
  cases fuel with
  | zero => exact g.withBlock_self k
  | succ fuel =>
    have hround : (g.block k).shareWithin (fuel + 1) g.localCount = (g.localCount, g.block k) := by
      rw [Block.nextShared?] at h
      rw [Block.shareWithin, h]
    rw [hround, withBlock_self]

theorem withBlock_of_some {value : Scalar} (h : (g.block k).nextShared? = some value) (fuel : Nat) :
    let g' := g.shareAt k g.localCount value
    g'.block k = (g.block k).shareValue g.localCount value ∧
      g.withBlock k ((g.block k).shareWithin (fuel + 1) g.localCount) =
        g'.withBlock k ((g'.block k).shareWithin fuel g'.localCount) := by
  intro g'
  have hblock : g'.block k = (g.block k).shareValue g.localCount value := by
    simp only [g', block, BlockGraph.shareAt, Array.getD_eq_getD_getElem?,
      Array.getElem?_setIfInBounds, if_pos (lt_of_nextShared? h), if_true, Option.getD_some]
  refine ⟨hblock, ?_⟩
  rw [hblock]
  rw [Block.nextShared?] at h
  rw [Block.shareWithin, h]
  simp only [g', withBlock, BlockGraph.shareAt, Array.setIfInBounds_setIfInBounds]

/-- What every round keeps, the rounds of a block keep. -/
theorem shareWithin_induction (hP : ∀ {g k value}, P g → (g.block k).nextShared? = some value →
      P (g.shareAt k g.localCount value)) (fuel k : Nat) (hg : P g) :
    P (g.withBlock k ((g.block k).shareWithin fuel g.localCount)) := by
  induction fuel generalizing g with
  | zero =>
    rw [Block.shareWithin, withBlock_self]
    exact hg
  | succ fuel ih =>
    cases hnext : (g.block k).nextShared? with
    | none =>
      rw [withBlock_of_none hnext]
      exact hg
    | some value =>
      rw [(withBlock_of_some hnext fuel).2]
      exact ih (hP hg hnext)

/-- What every round keeps, the whole pass keeps. -/
theorem share_induction (hP : ∀ {g k value}, P g → (g.block k).nextShared? = some value →
      P (g.shareAt k g.localCount value)) (hg : P g) : P g.share := by
  have hfold : ∀ (layout : List Nat) (g : BlockGraph), P g →
      P (layout.foldl (fun g k => g.withBlock k ((g.block k).share g.localCount)) g) := by
    intro layout
    induction layout with
    | nil => exact fun g hg => hg
    | cons k rest ih => exact fun g hg => ih _ (shareWithin_induction hP _ k hg)
  exact hfold g.layout g hg

/-- Sharing repeated values keeps what walks do. If inputs may change between runs, blocks that
share values must not call what waits or pauses. -/
theorem share_improves (hg : g.Within (extent x g)) (hquiet : changes → g.SharesQuietly) :
    Improves changes x g g.share :=
  share_induction (fun h hnext => h.shareAt hnext) ⟨.refl g, hg, hquiet⟩

end BlockGraph

end Behavior
