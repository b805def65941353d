/-!
Nodes of a finite graph that can be reached from others. Nodes are numbers below the size of the
array that marks them; successors past it are ignored.
-/

namespace Behavior.Reachability

theorem count_setIfInBounds_lt {α : Type} [BEq α] [LawfulBEq α] {xs : Array α} {i : Nat} {a b : α}
    (h : xs[i]? = some a) (hne : b ≠ a) : (xs.setIfInBounds i b).count a < xs.count a := by
  obtain ⟨hlt, hi⟩ := Array.getElem?_eq_some_iff.1 h
  have hpos : 0 < xs.count a := Array.count_pos_iff.2 (hi ▸ Array.getElem_mem hlt)
  rw [Array.setIfInBounds, dif_pos hlt, Array.count_set hlt, hi, if_pos BEq.rfl,
    if_neg fun hb => hne (eq_of_beq hb)]
  omega

theorem count_setIfInBounds_le {α : Type} [BEq α] [LawfulBEq α] {xs : Array α} {i : Nat} {a b : α}
    (hne : b ≠ a) : (xs.setIfInBounds i b).count a ≤ xs.count a := by
  unfold Array.setIfInBounds
  split
  · next hlt =>
    have hb : ¬ (b == a) = true := fun hb => hne (eq_of_beq hb)
    rw [Array.count_set hlt, if_neg hb]
    exact Nat.sub_le _ _
  · exact Nat.le_refl _

/-- Mark what can be reached from the pending nodes without passing marked ones. Each round either
drops a pending node or marks one more. -/
def marks (next : Nat → List Nat) (seen : Array Bool) (pending : List Nat) : Array Bool :=
  match pending with
  | [] => seen
  | node :: rest =>
    match _hs : seen[node]? with
    | some false => marks next (seen.setIfInBounds node true) ((next node).reverse ++ rest)
    | _ => marks next seen rest
termination_by (seen.count false, pending.length)
decreasing_by
  · exact Prod.Lex.left _ _ (count_setIfInBounds_lt _hs (by decide))
  · exact Prod.Lex.right _ (Nat.lt_succ_self _)

/-- Which of `count` nodes can be reached from the given ones. -/
def reachable (count : Nat) (next : Nat → List Nat) (start : List Nat) : Array Bool :=
  marks next (Array.replicate count false) start

/-- Whether a node is met on the way, with which the search ends. -/
def search (next : Nat → List Nat) (dest : Nat) (seen : Array Bool) (pending : List Nat) : Bool :=
  match pending with
  | [] => false
  | node :: rest =>
    if node = dest then true
    else
      match _hs : seen[node]? with
      | some false => search next dest (seen.setIfInBounds node true) ((next node).reverse ++ rest)
      | _ => search next dest seen rest
termination_by (seen.count false, pending.length)
decreasing_by
  · exact Prod.Lex.left _ _ (count_setIfInBounds_lt _hs (by decide))
  · exact Prod.Lex.right _ (Nat.lt_succ_self _)

end Behavior.Reachability
