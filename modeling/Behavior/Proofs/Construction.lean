import Behavior.Proofs.Lowered

/-!
Blocks under construction. Lowering fills one block after another and sets others aside until it
enters them. A document is laid out in the order in which it is written, so a block jumps to one
that comes after it, except where a loop goes back to its header and where a flow leaves for another
one. The first block of a branch comes right after the branch. Statements store to the locals of
the document, and a condition that is kept is stored to a local of its own.
-/

namespace Behavior

/-! ## What blocks lead to -/

/-- What a block calls, and what it leads to in the end. -/
structure Block.Leads (calls exits : Nat → Prop) (b : Block) : Prop where
  steps : ∀ st ∈ b.steps, ∀ c, st.1.target? = some c → calls c
  exit : ∀ t ∈ b.exit.targets, exits t

theorem Block.Leads.mono {calls exits calls' exits' : Nat → Prop} {b : Block}
    (h : b.Leads calls exits) (hcalls : ∀ c, calls c → calls' c)
    (hexits : ∀ t, exits t → exits' t) : b.Leads calls' exits' :=
  ⟨fun st hst c hc => hcalls c (h.steps st hst c hc), fun t ht => hexits t (h.exit t ht)⟩

/-- Ends by asking whether a loop runs again. -/
def Block.Counts (b : Block) : Prop :=
  ∃ counter thenBlock elseBlock,
    b.exit = .branch (Typed.isRunning counter) thenBlock elseBlock

/-- With the given blocks ahead in the layout, a jump goes to one of them, to the header of a loop,
or away. The first block of a branch comes next and the second one later. -/
def Exit.Onward (counts away : Nat → Prop) (ahead : List Nat) : Exit → Prop
  | .jump block => block ∈ ahead ∨ counts block ∨ away block
  | .branch _ thenBlock elseBlock => ahead.head? = some thenBlock ∧ elseBlock ∈ ahead.tail
  | .ret | .halt | .wait _ _ | .pause _ _ => True

/-- Blocks that have been left lead on, the latest first, with others ahead of them. -/
def AllOnward (block : Nat → Block) (counts : Nat → Prop) (away : Nat → Nat → Prop) :
    (ahead left : List Nat) → Prop
  | _, [] => True
  | ahead, i :: before =>
    (block i).exit.Onward counts (away i) ahead ∧ AllOnward block counts away (i :: ahead) before

theorem Exit.Onward.mono {counts counts' away away' : Nat → Prop} {ahead : List Nat} {e : Exit}
    (h : e.Onward counts away ahead) (hcounts : ∀ j, counts j → counts' j)
    (haway : ∀ j, away j → away' j) : e.Onward counts' away' ahead := by
  cases e with
  | jump j => exact h.imp_right (Or.imp (hcounts j) (haway j))
  | _ => exact h

namespace AllOnward

variable {block block' : Nat → Block} {counts counts' : Nat → Prop} {away away' : Nat → Nat → Prop}
  {ahead left : List Nat}

theorem mono (h : AllOnward block counts away ahead left)
    (hblock : ∀ i ∈ left, block' i = block i) (hcounts : ∀ j, counts j → counts' j)
    (haway : ∀ i ∈ left, ∀ j, away i j → away' i j) :
    AllOnward block' counts' away' ahead left := by
  induction left generalizing ahead with
  | nil => trivial
  | cons i before ih =>
    obtain ⟨hi, hbefore⟩ := h
    refine ⟨?_, ih hbefore (fun j hj => hblock j (List.mem_cons_of_mem _ hj))
      fun j hj => haway j (List.mem_cons_of_mem _ hj)⟩
    rw [hblock i List.mem_cons_self]
    exact hi.mono hcounts (haway i List.mem_cons_self)

/-- What comes after a block in the whole layout is ahead of it. -/
theorem of_suffix (h : AllOnward block counts away ahead left) {i : Nat} {rest : List Nat}
    (hsuffix : i :: rest <:+ left.reverse ++ ahead) :
    i :: rest <:+ ahead ∨ (block i).exit.Onward counts (away i) rest := by
  induction left generalizing ahead with
  | nil => exact .inl hsuffix
  | cons j before ih =>
    obtain ⟨hj, hbefore⟩ := h
    rw [List.reverse_cons, List.append_assoc] at hsuffix
    rcases ih hbefore hsuffix with hs | hi
    · rcases List.suffix_cons_iff.1 hs with heq | hs
      · cases heq
        exact .inr hj
      · exact .inl hs
    · exact .inr hi

end AllOnward

/-! ## What blocks store to -/

/-- The local that a step stores to. -/
def Step.local? : Step → Option Nat
  | setLocal slot _ => some slot
  | setOutput .. | call .. => none

/-- The locals that steps store to, in order. -/
def storedLocals (steps : List (Step × Span)) : List Nat :=
  steps.filterMap (·.1.local?)

/-- The locals that a block stores to. -/
def Block.storedLocals (b : Block) : List Nat :=
  Behavior.storedLocals b.steps

/-- Changing one element adds what it has more than before. -/
theorem perm_flatMap_set {α β : Type} (f : α → List β) {xs : List α} {i : Nat} {a b : α}
    {more : List β} (ha : xs[i]? = some a) (hb : (f b).Perm (more ++ f a)) :
    ((xs.set i b).flatMap f).Perm (xs.flatMap f ++ more) := by
  induction xs generalizing i with
  | nil => cases ha
  | cons x rest ih =>
    cases i with
    | zero =>
      cases ha
      rw [List.set_cons_zero, List.flatMap_cons, List.flatMap_cons]
      refine (hb.append_right _).trans ?_
      rw [List.append_assoc]
      exact List.perm_append_comm
    | succ i =>
      rw [List.set_cons_succ, List.flatMap_cons, List.flatMap_cons, List.append_assoc]
      exact (ih ha).append_left _

theorem getElem?_toList_blocks {blocks : Array Block} {i : Nat} (h : i < blocks.size) :
    blocks.toList[i]? = some (blocks.getD i {}) := by
  rw [Array.getD_eq_getD_getElem?, Array.getElem?_toList, Array.getElem?_eq_getElem h]
  rfl

namespace Typed

mutual

/-- The locals that a statement stores to. The counter of a loop is set before the loop and in each
run. -/
def Stmt.storedLocals : Stmt → List Nat
  | .setLocal _ slot value => List.range' slot value.type.width
  | .branch _ _ thenBody elseBody => Stmt.allStoredLocals thenBody ++ Stmt.allStoredLocals elseBody
  | .loop _ count counter body =>
    if count = 0 then [] else counter :: counter :: Stmt.allStoredLocals body
  | .setOutput .. | .intent .. | .call .. | .goto .. | .wait .. | .continuation .. | .halt .. => []

def Stmt.allStoredLocals : List Stmt → List Nat
  | [] => []
  | stmt :: rest => stmt.storedLocals ++ Stmt.allStoredLocals rest

end

/-- The locals that the statements of a document store to. -/
def Program.storedLocals (p : Program) : List Nat :=
  p.flows.flatMap fun flow => Stmt.allStoredLocals flow.body

/-- A passage from one flow of a document to another. -/
def Program.Passes (p : Program) (k : Nat) (x : Nat × Passage) : Prop :=
  x.1 < p.flows.length ∧ ∃ flow, p.flows[k]? = some flow ∧ x ∈ Stmt.allPassages flow.body

end Typed

/-! ## Lowering -/

namespace Lower

variable {α β : Type} {p : Typed.Program} {flow : Nat → Nat} {k i j : Nat}
  {loops now own own' later left written : List Nat} {s : State} {exit : Exit} {span : Span}

/-- An action leads from states with one property to states with another. -/
def Takes (P : State → Prop) (act : Build α) (Q : State → Prop) : Prop :=
  ∀ s, P s → Q (after act s)

section

variable {P Q R : State → Prop}

theorem Takes.seq {x : Build α} {f : α → Build β} (hx : Takes P x Q) (hf : ∀ a, Takes Q (f a) R) :
    Takes P (x >>= f) R :=
  fun s hs => hf _ _ (hx s hs)

theorem lowerTriple_takes (hkeep : ∀ condition, Takes P (keepImpure span condition) P)
    (v : Typed.Triple) : Takes P (lowerTriple span v) P := by
  induction v with
  | make x y z | inputSlots first | localSlots first => exact fun s hs => hs
  | select condition a b iha ihb =>
    rw [lowerTriple_select]
    exact (hkeep condition).seq fun _ => iha.seq fun _ => ihb.seq fun _ _ hs => hs

theorem lowerValue_takes (hkeep : ∀ condition, Takes P (keepImpure span condition) P)
    (v : Typed.Value) : Takes P (lowerValue span v) P := by
  cases v with
  | vector t => exact (lowerTriple_takes hkeep t).seq fun _ _ hs => hs
  | _ => exact fun s hs => hs

theorem store_takes {set : Nat → Scalar → Step}
    (hstep : ∀ slot e, Takes P (step span (set slot e)) P) (slot : Nat) (es : List Scalar) :
    Takes P (store span set slot es) P := by
  induction es generalizing slot with
  | nil => exact fun s hs => hs
  | cons e rest ih =>
    rw [store]
    exact (hstep slot e).seq fun _ => ih _

end

/-- A value is as many numbers as its type has slots. -/
theorem length_lowerValue (span : Span) (v : Typed.Value) (s : State) :
    ((lowerValue span v).run s).1.length = v.type.width := by
  cases v <;> rfl

/-- All stores to locals so far. -/
def State.storedLocals (s : State) : List Nat :=
  s.blocks.toList.flatMap Block.storedLocals ++ Behavior.storedLocals s.steps

/-- The header of a loop, which has been left. -/
def Counts (block : Nat → Block) (left : List Nat) (j : Nat) : Prop :=
  j ∈ left ∧ (block j).Counts

/-- The blocks of a document while flow `k` is lowered; `flow` says which flow a block belongs to.
The blocks of `left` have been left, the latest first, with the headers of the loops around among
them. Those of `now` come next. The blocks of `own`, which belong to the flow, and of `later` come
after them. Statements have stored to the locals in `written`. -/
structure Builds (p : Typed.Program) (flow : Nat → Nat) (k : Nat)
    (loops now own later left written : List Nat) (s : State) : Prop where
  blocks : (now ++ (own ++ (later ++ left))).Perm (List.range s.blocks.size)
  flows_le : p.flows.length ≤ s.blocks.size
  flow_new : ∀ i, s.blocks.size ≤ i → flow i = k
  flow_own : ∀ i ∈ now ++ own, flow i = k
  blank : ∀ i ∈ now ++ (own ++ later), (s.block i).steps = []
  first : (now ++ left).getLast? = some BlockGraph.entry
  loops : ∀ j ∈ loops, flow j = k ∧ Counts s.block left j
  calls : ∀ st ∈ s.steps, ∀ c, st.1.target? = some c → p.Passes k (c, .call)
  leads : ∀ i ∈ left, (s.block i).Leads (fun c => p.Passes (flow i) (c, .call))
    fun t => t < s.blocks.size ∧ (flow t = flow i ∨ p.Passes (flow i) (t, .jump))
  onward : ∀ future, own ++ later ⊆ future → AllOnward s.block (Counts s.block left)
    (fun i j => p.Passes (flow i) (j, .jump)) (now ++ future) left
  localCount_le : p.localCount ≤ s.localCount
  stores : s.storedLocals.Perm
    (written ++ List.range' p.localCount (s.localCount - p.localCount))

namespace Builds

theorem lt_size (hs : Builds p flow k loops now own later left written s)
    (hi : i ∈ now ++ (own ++ (later ++ left))) : i < s.blocks.size :=
  List.mem_range.1 (hs.blocks.mem_iff.1 hi)

theorem newBlock (hs : Builds p flow k loops now own later left written s) :
    Builds p flow k loops now (s.blocks.size :: own) later left written (after newBlock s) := by
  have hsize := size_newBlock s
  have hblock : (after Lower.newBlock s).block = s.block := funext (block_newBlock s)
  refine ⟨?_, ?_, ?_, ?_, ?_, hs.first, ?_, hs.calls, ?_, ?_, hs.localCount_le, ?_⟩
  · rw [hsize, List.range_succ]
    exact List.perm_middle.trans ((hs.blocks.cons _).trans (List.perm_append_singleton ..).symm)
  · exact hsize ▸ Nat.le_succ_of_le hs.flows_le
  · exact fun i hi => hs.flow_new i (by omega)
  · intro i hi
    rcases List.mem_cons.1 (List.perm_middle.mem_iff.1 hi) with rfl | hi
    · exact hs.flow_new _ (Nat.le_refl _)
    · exact hs.flow_own i hi
  · intro i hi
    rw [hblock]
    rcases List.mem_cons.1 (List.perm_middle.mem_iff.1 hi) with rfl | hi
    · rw [State.block, Array.getD_eq_getD_getElem?, Array.getElem?_eq_none (Nat.le_refl _)]
      rfl
    · exact hs.blank i hi
  · rw [hblock]
    exact hs.loops
  · rw [hblock, hsize]
    exact fun i hi => (hs.leads i hi).mono (fun _ h => h)
      fun t ht => ⟨Nat.lt_succ_of_lt ht.1, ht.2⟩
  · rw [hblock]
    exact fun future hfuture => hs.onward future fun i hi => hfuture (List.mem_cons_of_mem _ hi)
  · have hstores : (after Lower.newBlock s).storedLocals = s.storedLocals := by
      show (s.blocks.push {}).toList.flatMap Block.storedLocals ++ _ = _
      rw [Array.toList_push, List.flatMap_append]
      show (_ ++ []) ++ _ = _
      rw [List.append_nil]
      rfl
    rw [hstores]
    exact hs.stores

end Builds

/-- An exit leads on if some blocks come next and others later. -/
def LeadsOn (p : Typed.Program) (k : Nat) (loops now own : List Nat) : Exit → Prop
  | .jump j => j ∈ now ++ own ∨ j ∈ loops ∨ p.Passes k (j, .jump)
  | .branch _ i j => now = [i] ∧ j ∈ own
  | .wait _ j => j ∈ now ++ own
  | .pause _ j => p.Passes k (j, .jump)
  | .ret | .halt => True

theorem leadsOn_jump (h : j ∈ now ++ own) : LeadsOn p k loops now own (.jump j) :=
  .inl h

theorem leadsOn_back (h : j ∈ loops) : LeadsOn p k loops now own (.jump j) :=
  .inr (.inl h)

theorem leadsOn_away (h : p.Passes k (j, .jump)) : LeadsOn p k loops now own (.jump j) :=
  .inr (.inr h)

theorem leadsOn_branch {condition : Scalar} (h : j ∈ own) :
    LeadsOn p k loops [i] own (.branch condition i j) :=
  ⟨rfl, h⟩

theorem LeadsOn.targets (h : LeadsOn p k loops now own exit) {t : Nat} (ht : t ∈ exit.targets) :
    t ∈ now ++ own ∨ t ∈ loops ∨ p.Passes k (t, .jump) := by
  cases exit with
  | jump j =>
    cases List.mem_singleton.1 ht
    exact h
  | branch condition i j =>
    obtain ⟨rfl, hj⟩ := h
    rcases List.mem_cons.1 ht with rfl | ht
    · exact .inl List.mem_cons_self
    · cases List.mem_singleton.1 ht
      exact .inl (List.mem_cons_of_mem _ hj)
  | wait seconds j =>
    cases List.mem_singleton.1 ht
    exact .inl h
  | pause point j =>
    cases List.mem_singleton.1 ht
    exact .inr (.inr h)
  | ret | halt => cases ht

theorem LeadsOn.onward (h : LeadsOn p k loops now own exit) {counts away : Nat → Prop}
    (hcounts : ∀ j ∈ loops, counts j) (haway : ∀ j, p.Passes k (j, .jump) → away j)
    {future : List Nat} (hfuture : own ⊆ future) : exit.Onward counts away (now ++ future) := by
  cases exit with
  | jump j =>
    exact h.imp (fun hj => (List.mem_append.1 hj).elim (List.mem_append_left _)
      fun hj => List.mem_append_right _ (hfuture hj)) (Or.imp (hcounts j) (haway j))
  | branch condition i j =>
    obtain ⟨rfl, hj⟩ := h
    exact ⟨rfl, hfuture hj⟩
  | ret | halt | wait seconds j | pause point j => trivial

namespace Builds

/-- Leaving a block. The steps collected for it are all it has. -/
theorem leave (hs : Builds p flow k loops [s.current] own later left written s)
    (hown : own.Perm (now ++ own')) (hexit : LeadsOn p k loops now own' exit) (span : Span) :
    Builds p flow k loops now own' later (s.current :: left) written
      (after (leave span exit) s) := by
  have hsize := size_leave s span exit
  have hlt : s.current < s.blocks.size := hs.lt_size List.mem_cons_self
  have hperm : (now ++ (own' ++ (later ++ s.current :: left))).Perm
      ([s.current] ++ (own ++ (later ++ left))) := by
    refine List.perm_iff_count.2 fun a => ?_
    have := hown.count_eq a
    simp only [List.count_append, List.count_cons, List.count_nil] at this ⊢
    omega
  have hfresh : s.current ∉ own ++ (later ++ left) :=
    (List.nodup_cons.1 (hs.blocks.nodup_iff.2 List.nodup_range)).1
  -- all other blocks stay as they are
  have hblock : ∀ i ∈ own ++ (later ++ left),
      (after (Lower.leave span exit) s).block i = s.block i := by
    intro i hi
    have hne : i ≠ s.current := fun h => hfresh (h ▸ hi)
    rw [block_leave hlt, if_neg hne]
  have hbefore : ∀ i ∈ left, (after (Lower.leave span exit) s).block i = s.block i :=
    fun i hi => hblock i (List.mem_append_right _ (List.mem_append_right _ hi))
  have hcounts (j : Nat) (hj : Counts s.block left j) :
      Counts (after (Lower.leave span exit) s).block (s.current :: left) j :=
    ⟨List.mem_cons_of_mem _ hj.1, (hbefore j hj.1).symm ▸ hj.2⟩
  have hcurrent : flow s.current = k := hs.flow_own _ List.mem_cons_self
  have hnow : ∀ i ∈ now ++ own', i ∈ own := fun i hi => hown.mem_iff.2 hi
  refine ⟨hsize.symm ▸ hperm.trans hs.blocks, hsize.symm ▸ hs.flows_le, hsize.symm ▸ hs.flow_new,
    fun i hi => hs.flow_own i (List.mem_cons_of_mem _ (hnow i hi)), ?_, ?_,
    fun j hj => ⟨(hs.loops j hj).1, hcounts j (hs.loops j hj).2⟩, nofun, ?_, ?_,
    hs.localCount_le, ?_⟩
  · intro i hi
    rw [← List.append_assoc] at hi
    have hi : i ∈ own ++ later := List.mem_append.2 ((List.mem_append.1 hi).imp_left (hnow i))
    rw [hblock i (by rw [← List.append_assoc]; exact List.mem_append_left _ hi)]
    exact hs.blank i (List.mem_cons_of_mem _ hi)
  · rw [List.getLast?_append, show (s.current :: left).getLast? = _ from hs.first]
    rfl
  · rw [hsize]
    refine List.forall_mem_cons.2 ⟨?_, fun i hi => hbefore i hi ▸ hs.leads i hi⟩
    rw [block_leave hlt, if_pos rfl, hcurrent]
    refine ⟨fun st hst => hs.calls st (List.mem_reverse.1 hst), fun t ht => ?_⟩
    rcases hexit.targets ht with hmem | hmem | hpasses
    · have hmem := List.mem_cons_of_mem s.current (hnow t hmem)
      exact ⟨hs.lt_size (List.append_assoc .. ▸ List.mem_append_left _ hmem),
        .inl (hs.flow_own t hmem)⟩
    · obtain ⟨hflow, hleft, -⟩ := hs.loops t hmem
      exact ⟨hs.lt_size (by simp [hleft]), .inl hflow⟩
    · exact ⟨Nat.lt_of_lt_of_le hpasses.1 hs.flows_le, .inr hpasses⟩
  · intro future hfuture
    refine ⟨?_, (hs.onward (now ++ future) fun i hi => ?_).mono hbefore hcounts fun _ _ _ h => h⟩
    · rw [block_leave hlt, if_pos rfl]
      refine hexit.onward (fun j hj => hcounts j (hs.loops j hj).2) (fun j hj => ?_)
        fun i hi => hfuture (List.mem_append_left _ hi)
      show p.Passes (flow s.current) (j, .jump)
      rwa [hcurrent]
    · rcases List.mem_append.1 hi with hi | hi
      · exact (List.mem_append.1 (hown.mem_iff.1 hi)).elim (List.mem_append_left _)
          fun hi => List.mem_append_right _ (hfuture (List.mem_append_left _ hi))
      · exact List.mem_append_right _ (hfuture (List.mem_append_right _ hi))
  · -- the block has been blank so far, so nothing is lost when it is replaced
    have hfilled : (Block.storedLocals ⟨s.steps.reverse, exit, span⟩).Perm
        (Behavior.storedLocals s.steps ++ (s.block s.current).storedLocals) := by
      rw [Block.storedLocals, Block.storedLocals, hs.blank _ List.mem_cons_self]
      show (Behavior.storedLocals s.steps.reverse).Perm (Behavior.storedLocals s.steps ++ [])
      rw [List.append_nil]
      exact (List.reverse_perm _).filterMap _
    have hset := perm_flatMap_set Block.storedLocals (getElem?_toList_blocks hlt) hfilled
    rw [← Array.toList_setIfInBounds] at hset
    refine List.Perm.trans ?_ (hset.trans hs.stores)
    exact .of_eq (List.append_nil _)

/-- If it does not matter which block comes next, any one of the flow may. -/
theorem next (hs : Builds p flow k loops [] (i :: own) later left written s) :
    Builds p flow k loops [i] own later left written s := by
  refine ⟨hs.blocks, hs.flows_le, hs.flow_new, hs.flow_own, hs.blank, ?_, hs.loops, hs.calls,
    hs.leads, fun future hfuture => ?_, hs.localCount_le, hs.stores⟩
  · have hfirst := hs.first
    rw [List.nil_append] at hfirst
    show (i :: left).getLast? = _
    rw [List.getLast?_cons, hfirst]
    rfl
  · exact hs.onward (i :: future) (List.cons_subset_cons i hfuture)

theorem nextFlow {flow' : Nat → Nat} (hs : Builds p flow k [] [] [] (i :: later) left written s)
    (hsteps : s.steps = []) (hold : ∀ j < s.blocks.size, flow' j = flow j)
    (hnew : ∀ j, s.blocks.size ≤ j → flow' j = i) (hi : flow' i = i) :
    Builds p flow' i [] [i] [] later left written s := by
  have hleft {j : Nat} (hj : j ∈ left) : flow' j = flow j :=
    hold j (hs.lt_size (List.mem_append_right (i :: later) hj))
  have hs' : Builds p flow' i [] [] [i] later left written s := by
    refine ⟨hs.blocks, hs.flows_le, hnew, List.forall_mem_singleton.2 hi, hs.blank, hs.first, nofun,
      hsteps ▸ nofun, fun j hj => ?_, fun future hfuture => ?_, hs.localCount_le, hs.stores⟩
    · rw [hleft hj]
      refine (hs.leads j hj).mono (fun _ h => h) fun t ht => ⟨ht.1, ?_⟩
      rw [hold t ht.1]
      exact ht.2
    · refine (hs.onward future hfuture).mono (fun _ _ => rfl) (fun _ h => h) fun j hj t ht => ?_
      rw [hleft hj]
      exact ht
  exact hs'.next

end Builds

/-- In a block of the flow. -/
def Works (p : Typed.Program) (flow : Nat → Nat) (k : Nat) (loops own later written : List Nat)
    (s : State) : Prop :=
  ∃ left, s.layout = s.current :: left ∧
    Builds p flow k loops [s.current] own later left written s

theorem Builds.enter (hs : Builds p flow k loops [i] own later s.layout written s) :
    Works p flow k loops own later written (after (enter i) s) :=
  ⟨s.layout, rfl, hs.blocks, hs.flows_le, hs.flow_new, hs.flow_own, hs.blank, hs.first, hs.loops,
    hs.calls, hs.leads, hs.onward, hs.localCount_le, hs.stores⟩

theorem newBlock_takes {f : Nat → Build β} {Q : State → Prop}
    (hf : ∀ i, Takes (Works p flow k loops (i :: own) later written) (f i) Q) :
    Takes (Works p flow k loops own later written) (newBlock >>= f) Q := by
  rintro s ⟨left, hlayout, hs⟩
  exact hf s.blocks.size _ ⟨left, hlayout, hs.newBlock⟩

theorem Works.leave (hs : Works p flow k loops own later written s) (hown : own.Perm (now ++ own'))
    (hexit : LeadsOn p k loops now own' exit) (span : Span) :
    let t := after (leave span exit) s
    Builds p flow k loops now own' later t.layout written t := by
  obtain ⟨left, hlayout, hs⟩ := hs
  intro t
  rw [show t.layout = s.current :: left from hlayout]
  exact hs.leave hown hexit span

/-- One block is left, and the next one is entered. -/
theorem turn_takes (hown : own.Perm (i :: own')) (hexit : LeadsOn p k loops [i] own' exit) :
    Takes (Works p flow k loops own later written) (do leave span exit; enter i)
      (Works p flow k loops own' later written) :=
  fun _ hs => (hs.leave hown hexit span).enter

theorem Takes.turn {act : Build β} {Q : State → Prop} (hown : own.Perm (i :: own'))
    (hexit : LeadsOn p k loops [i] own' exit)
    (hact : Takes (Works p flow k loops own' later written) act Q) :
    Takes (Works p flow k loops own later written) (do leave span exit; enter i; act) Q :=
  fun s hs => hact _ (turn_takes hown hexit s hs)

theorem leaveForGood_takes (hexit : LeadsOn p k loops [] own exit) :
    Takes (Works p flow k loops own later written) (leaveForGood span exit)
      (Works p flow k loops own later written) :=
  fun _ hs => (hs.leave (.refl _) hexit span).newBlock.next.enter

/-- The header of a loop is left for the body, which may come back to it. -/
theorem Takes.header {act : Build β} {Q : State → Prop} {header counter : Nat}
    (hown : own.Perm (header :: i :: j :: own'))
    (hact : Takes (Works p flow k (header :: loops) (j :: own') later written) act Q) :
    Takes (Works p flow k loops own later written) (do
      leave span (.jump header)
      enter header
      leave span (.branch (Typed.isRunning counter) i j)
      enter i
      act) Q := by
  intro s hs
  let t := after (do leave span (.jump header); enter header) s
  obtain ⟨left, hlayout, ht⟩ : Works p flow k loops (i :: j :: own') later written t :=
    turn_takes hown (leadsOn_jump List.mem_cons_self) s hs
  have hlt : t.current < t.blocks.size := ht.lt_size List.mem_cons_self
  let exit : Exit := .branch (Typed.isRunning counter) i j
  have hleft : Builds p flow k loops [i] (j :: own') later (t.current :: left) written
      (after (leave span exit) t) :=
    ht.leave (.refl _) (leadsOn_branch List.mem_cons_self) span
  have hcounts : ((after (leave span exit) t).block header).Counts := by
    rw [block_leave hlt, if_pos (show header = t.current from rfl)]
    exact ⟨counter, i, j, rfl⟩
  refine hact _ (Builds.enter (s := after (leave span exit) t) ?_)
  rw [show (after (leave span exit) t).layout = t.current :: left from hlayout]
  refine { hleft with loops := List.forall_mem_cons.2 ⟨⟨?_, List.mem_cons_self, hcounts⟩, hleft.loops⟩ }
  exact ht.flow_own _ List.mem_cons_self

/-- The body of a loop is over. -/
theorem Works.outer {header : Nat} (hs : Works p flow k (header :: loops) own later written s) :
    Works p flow k loops own later written s := by
  obtain ⟨left, hlayout, hs⟩ := hs
  exact ⟨left, hlayout, { hs with loops := fun j hj => hs.loops j (List.mem_cons_of_mem _ hj) }⟩

/-! ### Steps -/

theorem storedLocals_cons (s : State) (st : Step × Span) (n : Nat) :
    State.storedLocals { s with steps := st :: s.steps, localCount := n } |>.Perm
      (st.1.local?.toList ++ s.storedLocals) := by
  have hsteps : Behavior.storedLocals (st :: s.steps) =
      st.1.local?.toList ++ Behavior.storedLocals s.steps := by
    obtain ⟨st, span⟩ := st
    cases st <;> rfl
  rw [State.storedLocals, hsteps]
  exact List.perm_append_comm_assoc ..

/-- A step may be a store, and may take a local. -/
theorem Works.withStep {n : Nat} {written' : List Nat}
    (hs : Works p flow k loops own later written s) (st : Step × Span)
    (hcalls : ∀ c, st.1.target? = some c → p.Passes k (c, .call)) (hn : s.localCount ≤ n)
    (hstores : (st.1.local?.toList ++
      (written ++ List.range' p.localCount (s.localCount - p.localCount))).Perm
        (written' ++ List.range' p.localCount (n - p.localCount))) :
    Works p flow k loops own later written'
      { s with steps := st :: s.steps, localCount := n } := by
  obtain ⟨left, hlayout, hs⟩ := hs
  exact ⟨left, hlayout, hs.blocks, hs.flows_le, hs.flow_new, hs.flow_own, hs.blank, hs.first,
    hs.loops, List.forall_mem_cons.2 ⟨hcalls, hs.calls⟩, hs.leads, hs.onward,
    Nat.le_trans hs.localCount_le hn,
    (storedLocals_cons s st n).trans ((hs.stores.append_left _).trans hstores)⟩

theorem step_takes (st : Step) (hcalls : ∀ c, st.target? = some c → p.Passes k (c, .call)) :
    Takes (Works p flow k loops own later written) (step span st)
      (Works p flow k loops own later (written ++ st.local?.toList)) := by
  refine fun s hs => hs.withStep (st, span) hcalls (Nat.le_refl _) ?_
  rw [List.append_assoc]
  exact List.perm_append_comm_assoc ..

theorem otherStep_takes {st : Step} (hst : st.local? = none)
    (hcalls : ∀ c, st.target? = some c → p.Passes k (c, .call)) :
    Takes (Works p flow k loops own later written) (step span st)
      (Works p flow k loops own later written) := by
  have hstep : Takes (Works p flow k loops own later written) (step span st) _ := step_takes st hcalls
  rwa [hst, Option.toList_none, List.append_nil] at hstep

/-- A condition is kept in the next local, which nothing else is stored to. -/
theorem keepImpure_takes (condition : Scalar) :
    Takes (Works p flow k loops own later written) (keepImpure span condition)
      (Works p flow k loops own later written) := by
  unfold keepImpure
  split
  · exact fun _ hs => hs
  · intro s hs
    have hle : p.localCount ≤ s.localCount := hs.choose_spec.2.localCount_le
    refine hs.withStep (.setLocal s.localCount condition, span) nofun (Nat.le_succ _) ?_
    rw [Nat.succ_sub hle, List.range'_1_concat, Nat.add_sub_cancel' hle,
      ← List.append_assoc written]
    exact List.perm_append_comm

/-- Setting a local of the document stores to its own slots. -/
theorem setLocal_takes (slot : Nat) (v : Typed.Value) :
    Takes (Works p flow k loops own later written)
      (do store span .setLocal slot (← lowerValue span v))
      (Works p flow k loops own later (written ++ List.range' slot v.type.width)) := by
  have hstore (slot : Nat) (es : List Scalar) : ∀ {written : List Nat},
      Takes (Works p flow k loops own later written) (store span .setLocal slot es)
        (Works p flow k loops own later (written ++ List.range' slot es.length)) := by
    induction es generalizing slot with
    | nil =>
      intro written
      rw [List.length_nil, List.range'_zero, List.append_nil]
      exact fun s hs => hs
    | cons e rest ih =>
      intro written
      rw [store, List.length_cons, List.range'_succ, List.append_cons]
      exact (step_takes (.setLocal slot e) (by rintro _ ⟨⟩)).seq fun _ => ih (slot + 1)
  intro s hs
  rw [← length_lowerValue span v s]
  exact hstore slot _ _ (lowerValue_takes keepImpure_takes v s hs)

theorem setOutput_takes (slot : Nat) (v : Typed.Value) :
    Takes (Works p flow k loops own later written)
      (do store span .setOutput slot (← lowerValue span v))
      (Works p flow k loops own later written) :=
  (lowerValue_takes keepImpure_takes v).seq fun _ =>
    store_takes (fun _ _ => otherStep_takes rfl (by rintro _ ⟨⟩)) slot _

mutual

/-- A statement adds blocks that lead on, and stores to the locals that it names and to new ones. -/
theorem lowerStmt_builds {loops own written : List Nat} {t : Typed.Stmt}
    (h : ∀ x ∈ t.passages, p.Passes k x) :
    Takes (Works p flow k loops own later written) (lowerStmt t)
      (Works p flow k loops own later (written ++ t.storedLocals)) := by
  cases t with
  | setLocal span slot value =>
    rw [lowerStmt, Typed.Stmt.storedLocals]
    exact setLocal_takes slot value
  | setOutput span slot value =>
    rw [lowerStmt, Typed.Stmt.storedLocals, List.append_nil]
    exact setOutput_takes slot value
  | intent span valueSlot urgencySlot value urgency =>
    rw [lowerStmt, Typed.Stmt.storedLocals, List.append_nil]
    exact fun s hs => otherStep_takes rfl (by rintro _ ⟨⟩) _ (setOutput_takes valueSlot value s hs)
  | branch span condition thenBody elseBody =>
    obtain ⟨hthen, helse⟩ := List.forall_mem_append.1 h
    rw [Typed.Stmt.storedLocals]
    cases elseBody with
    | nil =>
      rw [lowerStmt_branch_nil, Typed.Stmt.allStoredLocals, List.append_nil]
      refine newBlock_takes fun i => newBlock_takes fun merge => ?_
      refine .turn (.swap ..) (leadsOn_branch List.mem_cons_self) ?_
      refine (lowerStmts_builds hthen).seq fun _ => ?_
      exact turn_takes (.refl _) (leadsOn_jump List.mem_cons_self)
    | cons t ts =>
      rw [lowerStmt_branch_cons, ← List.append_assoc]
      refine newBlock_takes fun i => newBlock_takes fun merge => newBlock_takes fun j => ?_
      refine .turn (@List.perm_middle _ i [j, merge] own) (leadsOn_branch List.mem_cons_self) ?_
      refine (lowerStmts_builds hthen).seq fun _ => ?_
      refine .turn (.refl _) (leadsOn_jump (List.mem_cons_of_mem _ List.mem_cons_self)) ?_
      refine (lowerStmts_builds helse).seq fun _ => ?_
      exact turn_takes (.refl _) (leadsOn_jump List.mem_cons_self)
  | loop span count counter body =>
    rw [Typed.Stmt.storedLocals]
    cases count with
    | zero =>
      rw [lowerStmt_loop_zero, if_pos rfl, List.append_nil]
      exact fun s hs => hs
    | succ n =>
      rw [lowerStmt_loop_succ, if_neg (Nat.succ_ne_zero n), List.append_cons, List.append_cons]
      refine (step_takes _ (by rintro _ ⟨⟩)).seq fun _ => ?_
      refine newBlock_takes fun header => newBlock_takes fun i => newBlock_takes fun next => ?_
      -- the body goes back to the header, which has been left
      refine .header (.trans (@List.perm_middle _ header [next, i] own) (.cons _ (.swap ..))) ?_
      refine (step_takes _ (by rintro _ ⟨⟩)).seq fun _ => (lowerStmts_builds h).seq fun _ => ?_
      exact fun s hs => (turn_takes (.refl _) (leadsOn_back List.mem_cons_self) s hs).outer
  | call span flow =>
    rw [lowerStmt, Typed.Stmt.storedLocals, List.append_nil]
    refine otherStep_takes rfl fun c hc => ?_
    cases hc
    exact h _ (List.mem_singleton_self _)
  | goto span flow =>
    rw [lowerStmt, Typed.Stmt.storedLocals, List.append_nil]
    exact leaveForGood_takes (leadsOn_away (h _ (List.mem_singleton_self _)))
  | continuation span point defaultFlow =>
    rw [lowerStmt, Typed.Stmt.storedLocals, List.append_nil]
    exact leaveForGood_takes (h _ (List.mem_singleton_self _))
  | halt span =>
    rw [lowerStmt, Typed.Stmt.storedLocals, List.append_nil]
    exact leaveForGood_takes trivial
  | wait span seconds =>
    rw [lowerStmt, Typed.Stmt.storedLocals, List.append_nil]
    exact newBlock_takes fun next => turn_takes (.refl _) List.mem_cons_self

theorem lowerStmts_builds {loops own written : List Nat} {ts : List Typed.Stmt}
    (h : ∀ x ∈ Typed.Stmt.allPassages ts, p.Passes k x) :
    Takes (Works p flow k loops own later written) (lowerStmts ts)
      (Works p flow k loops own later (written ++ Typed.Stmt.allStoredLocals ts)) := by
  cases ts with
  | nil =>
    rw [lowerStmts, Typed.Stmt.allStoredLocals, List.append_nil]
    exact fun s hs => hs
  | cons t rest =>
    obtain ⟨ht, hrest⟩ := List.forall_mem_append.1 h
    rw [lowerStmts, Typed.Stmt.allStoredLocals, ← List.append_assoc]
    exact (lowerStmt_builds ht).seq fun _ => lowerStmts_builds hrest

end

/-! ### Flows -/

theorem lowerFlow_builds {index : Nat} {f : Typed.Flow} (hf : p.flows[index]? = some f)
    (hinside : ∀ x ∈ Typed.Stmt.allPassages f.body, x.1 < p.flows.length)
    (hs : Builds p flow index [] [index] [] later s.layout written s) :
    let t := after (do enter index; lowerStmts f.body; leave f.span .ret) s
    Builds p flow index [] [] [] later t.layout
      (written ++ Typed.Stmt.allStoredLocals f.body) t := by
  have hpasses : ∀ x ∈ Typed.Stmt.allPassages f.body, p.Passes index x := fun x hx =>
    ⟨hinside x hx, f, hf, hx⟩
  have hret : LeadsOn p index [] [] [] .ret := trivial
  exact (lowerStmts_builds hpasses _ hs.enter).leave (.refl _) hret f.span

/-- Flows are lowered one after another. -/
theorem lowerFlows_builds {index : Nat} {f : Typed.Flow} {rest : List Typed.Flow}
    (hinside : ∀ f ∈ p.flows, ∀ x ∈ Typed.Stmt.allPassages f.body, x.1 < p.flows.length)
    (hdrop : p.flows.drop index = f :: rest) (hflow : ∀ i < p.flows.length, flow i = i)
    (hs : Builds p flow index [] [index] [] (List.range' (index + 1) rest.length) s.layout written
      s) :
    let t := after (lowerFlows index (f :: rest)) s
    t.steps = [] ∧ ∃ flow' k, (∀ i < p.flows.length, flow' i = i) ∧
      Builds p flow' k [] [] [] [] t.layout
        (written ++ (f :: rest).flatMap fun f => Typed.Stmt.allStoredLocals f.body) t := by
  induction rest generalizing index flow f s written with
  | nil =>
    have hf : p.flows[index]? = some f := by rw [← List.head?_drop, hdrop]; rfl
    rw [List.flatMap_cons, List.flatMap_nil, List.append_nil]
    exact ⟨rfl, flow, index, hflow, lowerFlow_builds hf (hinside f (List.mem_of_getElem? hf)) hs⟩
  | cons f' rest ih =>
    have hf : p.flows[index]? = some f := by rw [← List.head?_drop, hdrop]; rfl
    let t := after (do enter index; lowerStmts f.body; leave f.span .ret) s
    have ht : Builds p flow index [] [] [] _ t.layout _ t :=
      lowerFlow_builds hf (hinside f (List.mem_of_getElem? hf)) hs
    have hdrop' : p.flows.drop (index + 1) = f' :: rest := by
      rw [← List.tail_drop, hdrop]
      rfl
    have hlt : index + 1 < p.flows.length := by
      have := congrArg List.length hdrop'
      rw [List.length_drop, List.length_cons] at this
      omega
    -- blocks that are there stay with their flow, and all that the next flow adds belongs to it
    let flow' (i : Nat) : Nat := if i < t.blocks.size then flow i else index + 1
    have hold : ∀ i < t.blocks.size, flow' i = flow i := fun i hi => if_pos hi
    have hflow' : ∀ i < p.flows.length, flow' i = i := fun i hi =>
      (hold i (Nat.lt_of_lt_of_le hi ht.flows_le)).trans (hflow i hi)
    have hnext : Builds p flow' (index + 1) [] [index + 1] [] _ t.layout _ t :=
      ht.nextFlow rfl hold (fun i hi => if_neg (Nat.not_lt.2 hi)) (hflow' _ hlt)
    rw [List.flatMap_cons, ← List.append_assoc]
    exact ih hdrop' hflow' hnext

/-- Where lowering starts: the first blocks of the flows are set aside. -/
def State.start (p : Typed.Program) : State :=
  { blocks := Array.replicate p.flows.length {}, localCount := p.localCount }

theorem Builds.start {n : Nat} (hlength : p.flows.length = n + 1) :
    let s := State.start p
    Builds p (fun i => if i < p.flows.length then i else 0) 0 [] [0] [] (List.range' 1 n) s.layout []
      s := by
  have hsize : (State.start p).blocks.size = p.flows.length := Array.size_replicate ..
  refine ⟨?_, Nat.le_of_eq hsize.symm, fun i hi => if_neg (by omega), ?_, ?_, rfl, nofun, nofun,
    nofun, fun _ _ => trivial, Nat.le_refl _, ?_⟩
  · rw [hsize, hlength, List.range_eq_range', List.range'_succ]
    exact .of_eq (congrArg (0 :: ·) (List.append_nil _))
  · exact List.forall_mem_singleton.2 (if_pos (by omega))
  · intro i _
    rw [State.block, State.start, Array.getD_eq_getD_getElem?, Array.getElem?_replicate]
    split <;> rfl
  · have hnone : (State.start p).storedLocals = [] := by
      rw [State.storedLocals, State.start, Array.toList_replicate]
      simp [Block.storedLocals, Behavior.storedLocals]
    rw [hnone]
    simp [State.start]

/-- The blocks of a document when nothing is left to lower. -/
theorem builds_toBlocks (hne : p.flows ≠ [])
    (hinside : ∀ f ∈ p.flows, ∀ x ∈ Typed.Stmt.allPassages f.body, x.1 < p.flows.length) :
    let t := after (lowerFlows 0 p.flows) (State.start p)
    t.steps = [] ∧ ∃ flow k, (∀ i < p.flows.length, flow i = i) ∧
      Builds p flow k [] [] [] [] t.layout p.storedLocals t := by
  obtain ⟨f, rest, hflows⟩ := List.exists_cons_of_ne_nil hne
  have hlength : p.flows.length = rest.length + 1 := by rw [hflows, List.length_cons]
  have hend := lowerFlows_builds hinside (List.drop_zero.trans hflows) (fun i hi => if_pos hi)
    (Builds.start hlength)
  rwa [← hflows, List.nil_append] at hend

end Lower

end Behavior
