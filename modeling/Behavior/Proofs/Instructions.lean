import Behavior.Proofs.Walk

/-!
How many instructions a walk takes. The code of an expression is run through from its start to its
end, except that only one branch of a choice is. A jump takes an instruction unless the code of the
block comes next, so what leaving a block costs depends on the layout: a site says which blocks come
after the current one, and after those to come back to.
-/

namespace Behavior

/-! ## Costs -/

namespace Scalar

variable (inputs : Array Float) (locals : Nat → Float)

/-- Instructions that compute an expression. The first branch of a choice ends with a jump over the
second. -/
def cost : Scalar → Tape → Nat
  | const _, _ | inputSlot _, _ | localSlot _, _ | random, _ => 1
  | unary _ a, r => a.cost r + 1
  | binary _ a b, r => a.cost r + b.cost (a.eval inputs locals r).2 + 1
  | ternary _ a b c, r =>
    let x := a.eval inputs locals r
    a.cost r + b.cost x.2 + c.cost (b.eval inputs locals x.2).2 + 1
  | select condition a b, r =>
    let x := condition.eval inputs locals r
    condition.cost r + 1 + if truthy x.1 then a.cost x.2 + 1 else b.cost x.2

theorem cost_pos (e : Scalar) (r : Tape) : 0 < e.cost inputs locals r := by
  cases e <;> simp only [cost] <;> omega

theorem cost_le_codeSize (e : Scalar) (r : Tape) : e.cost inputs locals r ≤ e.codeSize := by
  induction e generalizing r with
  | const x | inputSlot slot | localSlot slot | random => exact Nat.le_refl 1
  | unary f a iha => exact Nat.succ_le_succ (iha r)
  | binary f a b iha ihb =>
    exact Nat.succ_le_succ (Nat.add_le_add (iha r) (ihb _))
  | ternary f a b c iha ihb ihc =>
    exact Nat.succ_le_succ (Nat.add_le_add (Nat.add_le_add (iha r) (ihb _)) (ihc _))
  | select c a b ihc iha ihb =>
    have hc := ihc r
    have ha := iha (c.eval inputs locals r).2
    have hb := ihb (c.eval inputs locals r).2
    simp only [cost, codeSize]
    split <;> omega

end Scalar

/-- A jump to a block, with the code of the block `next` after it. -/
def jumpCost (next : Option Nat) (block : Nat) : Nat :=
  if next = some block then 0 else 1

theorem jumpCost_le_one (next : Option Nat) (block : Nat) : jumpCost next block ≤ 1 := by
  unfold jumpCost
  split <;> decide

def Step.cost (inputs : Array Float) (locals : Nat → Float) (tape : Tape) : Step → Nat
  | .setLocal _ value | .setOutput _ value => value.cost inputs locals tape + 1
  | .call _ => 1

/-- Leaving a block. A branch jumps to its second block, or to its first one if the second comes
next; the jump after a wait is a step of its own. -/
def Exit.cost (inputs : Array Float) (locals : Nat → Float) (tape : Tape) (next : Option Nat) :
    Exit → Nat
  | .jump block => jumpCost next block
  | .branch condition thenBlock elseBlock =>
    condition.cost inputs locals tape + 1 +
      if truthy (condition.eval inputs locals tape).1 ∧ next ≠ some elseBlock then
        jumpCost next thenBlock
      else 0
  | .wait seconds _ => seconds.cost inputs locals tape + 1
  | .ret | .halt | .pause _ _ => 1

/-! ## Sites -/

/-- Where a walk turns to. -/
inductive Turn where
  | stay
  | enter (block : Nat)
  | call (block : Nat)
  | back

/-- The block that is entered, if one is. -/
def Turn.entered : Turn → List Nat
  | .enter block | .call block => [block]
  | .stay | .back => []

/-- The blocks that come after the current one in the layout, and after the ones to come back to,
the innermost first. -/
structure Site where
  ahead : List Nat
  outer : List (List Nat) := []

/-- A turn leads from one site to another. -/
def Site.Turns (layout : List Nat) (s : Site) : Turn → Site → Prop
  | .stay, s' => s' = s
  | .enter block, s' => block :: s'.ahead <:+ layout ∧ s'.outer = s.outer
  | .call block, s' => block :: s'.ahead <:+ layout ∧ s'.outer = s.ahead :: s.outer
  | .back, s' => s.outer = s'.ahead :: s'.outer

/-- What comes after an element is determined if nothing is repeated. -/
theorem eq_of_suffix_of_nodup {α : Type} {a : α} {l l₁ l₂ : List α} (hnodup : l.Nodup)
    (h₁ : a :: l₁ <:+ l) (h₂ : a :: l₂ <:+ l) : l₁ = l₂ := by
  -- a suffix of what comes after an element cannot start with it
  have hself {l₁ l₂ : List α} (h : a :: l₁ <:+ l) (hs : a :: l₂ <:+ a :: l₁) : l₂ = l₁ := by
    rcases List.suffix_cons_iff.1 hs with heq | hs
    · exact (List.cons.inj heq).2
    · have hmem : a ∈ l₁ := hs.subset List.mem_cons_self
      exact absurd hmem (List.nodup_cons.1 (hnodup.sublist h.sublist)).1
  rcases List.suffix_or_suffix_of_suffix h₁ h₂ with hs | hs
  · exact hself h₂ hs
  · exact (hself h₁ hs).symm

/-- In a layout without repetition a turn leads to one site. -/
theorem Site.Turns.unique {layout : List Nat} (hnodup : layout.Nodup) {turn : Turn}
    {s s₁ s₂ : Site} (h₁ : s.Turns layout turn s₁) (h₂ : s.Turns layout turn s₂) : s₁ = s₂ := by
  obtain ⟨ahead₁, outer₁⟩ := s₁
  obtain ⟨ahead₂, outer₂⟩ := s₂
  cases turn with
  | stay => exact h₁.trans h₂.symm
  | enter block | call block =>
    obtain ⟨hahead₁, houter₁⟩ := h₁
    obtain ⟨hahead₂, houter₂⟩ := h₂
    cases eq_of_suffix_of_nodup hnodup hahead₁ hahead₂
    cases houter₁.trans houter₂.symm
    rfl
  | back =>
    cases h₁.symm.trans h₂
    rfl

/-! ## Walks -/

namespace Walk

variable {g g' : BlockGraph} {inputs : Array Float}

/-- Instructions for the next step. -/
def cost (inputs : Array Float) (next : Option Nat) (w : Walk) : Nat :=
  match w.block.steps with
  | [] => w.block.exit.cost inputs w.locals w.tape next
  | (step, _) :: _ => step.cost inputs w.locals w.tape

/-- Where the next step leads. -/
def turn (inputs : Array Float) (w : Walk) : Turn :=
  match w.block.steps with
  | (.call block, _) :: _ => .call block
  | _ :: _ => .stay
  | [] =>
    match w.block.exit with
    | .jump block => .enter block
    | .branch condition thenBlock elseBlock =>
      .enter (if truthy (condition.eval inputs w.locals w.tape).1 then thenBlock else elseBlock)
    | .ret => .back
    | .halt | .wait _ _ | .pause _ _ => .stay

theorem cost_of_halt {w w' : Walk} (h : w.step g inputs = .stop .halt w') (next : Option Nat) :
    w.cost inputs next = 1 := by
  obtain ⟨⟨steps, exit, span⟩, calls, locals, outputs, tape⟩ := w
  cases steps with
  | nil => cases exit <;> first | rfl | cases h
  | cons head rest =>
    obtain ⟨s, stepSpan⟩ := head
    cases s <;> cases h

/-- The walk halts after a number of instructions, and enters blocks on the way. Waits are passed
over. -/
inductive Spends (g : BlockGraph) (inputs : Array Float) : Nat → List Nat → Site → Walk → Prop
  | halt {w w' : Walk} {site : Site} :
      w.step g inputs = .stop .halt w' → Spends g inputs 1 [] site w
  | step {w v : Walk} {site site' : Site} {n : Nat} {entered : List Nat} :
      w.step g inputs = .next v → site.Turns g.layout (w.turn inputs) site' →
      Spends g inputs n entered site' v →
      Spends g inputs (w.cost inputs site.ahead.head? + n) ((w.turn inputs).entered ++ entered)
        site w
  | pass {w v : Walk} {site : Site} {x : Float} {n : Nat} {entered : List Nat} :
      w.step g inputs = .stop (.wait x) v → Spends g inputs n entered site v →
      Spends g inputs (w.cost inputs site.ahead.head? + n) entered site w

/-- A change of blocks that carries over each step and makes none dearer makes no walk dearer. -/
theorem Spends.map {f : Block → Block} (hlayout : g'.layout = g.layout)
    (hstep : ∀ w : Walk, (w.map f).step g' inputs = (w.step g inputs).map f)
    (hturn : ∀ w : Walk, (w.map f).turn inputs = w.turn inputs)
    (hcost : ∀ (w : Walk) next, (w.map f).cost inputs next ≤ w.cost inputs next) {n : Nat}
    {entered : List Nat} {site : Site} {w : Walk} (h : Spends g inputs n entered site w) :
    ∃ n' ≤ n, Spends g' inputs n' entered site (w.map f) := by
  induction h with
  | halt hs => exact ⟨1, Nat.le_refl 1, .halt (by rw [hstep, hs]; rfl)⟩
  | step hs hturns _ ih =>
    obtain ⟨n', hle, ih⟩ := ih
    rw [← hlayout, ← hturn] at hturns
    have h := Spends.step (by rw [hstep, hs]; rfl) hturns ih
    rw [hturn] at h
    exact ⟨_, Nat.add_le_add (hcost _ _) hle, h⟩
  | pass hs _ ih =>
    obtain ⟨n', hle, ih⟩ := ih
    exact ⟨_, Nat.add_le_add (hcost _ _) hle, .pass (by rw [hstep, hs]; rfl) ih⟩

end Walk

end Behavior
