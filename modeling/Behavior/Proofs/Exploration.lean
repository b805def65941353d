import Behavior.Reachability
import Mathlib.Logic.Relation

/-!
Searches with a list of pending nodes. What has been seen leads only to what has been seen or is
pending, so when nothing is pending, what has been seen is what can be reached.
-/

namespace Behavior.Reachability

/-- The state of a search for what can be reached from some nodes. -/
structure Exploring (step : Nat → Nat → Prop) (start seen : Nat → Prop) (pending : List Nat) :
    Prop where
  known : ∀ i, start i → seen i ∨ i ∈ pending
  closed : ∀ i, seen i → ∀ j, step i j → seen j ∨ j ∈ pending
  reached : ∀ i, seen i ∨ i ∈ pending → ∃ s, start s ∧ Relation.ReflTransGen step s i

namespace Exploring

variable {step : Nat → Nat → Prop} {start seen seen' : Nat → Prop} {node i : Nat}
  {next rest pending : List Nat}

theorem start_of (hseen : ∀ i, ¬ seen i) (hpending : ∀ i, i ∈ pending ↔ start i) :
    Exploring step start seen pending where
  known i hi := .inr ((hpending i).2 hi)
  closed i hi := absurd hi (hseen i)
  reached i hi := ⟨i, (hpending i).1 (hi.resolve_left (hseen i)), .refl⟩

theorem drop (h : Exploring step start seen (node :: rest)) (hnode : seen node) :
    Exploring step start seen rest := by
  have hknown {i : Nat} (hi : seen i ∨ i ∈ node :: rest) : seen i ∨ i ∈ rest := by
    rcases hi with hi | hi
    · exact .inl hi
    · rcases List.mem_cons.1 hi with rfl | hi
      · exact .inl hnode
      · exact .inr hi
  exact ⟨fun i hi => hknown (h.known i hi), fun i hi j hj => hknown (h.closed i hi j hj),
    fun i hi => h.reached i (hi.imp_right (List.mem_cons_of_mem _))⟩

theorem visit (h : Exploring step start seen (node :: rest))
    (hseen : ∀ i, seen' i ↔ i = node ∨ seen i) (hnext : ∀ i, i ∈ next ↔ step node i) :
    Exploring step start seen' (next ++ rest) := by
  have hknown {i : Nat} (hi : seen i ∨ i ∈ node :: rest) : seen' i ∨ i ∈ next ++ rest := by
    rw [hseen]
    rcases hi with hi | hi
    · exact .inl (.inr hi)
    · rcases List.mem_cons.1 hi with rfl | hi
      · exact .inl (.inl rfl)
      · exact .inr (List.mem_append_right _ hi)
  refine ⟨fun i hi => hknown (h.known i hi), fun i hi j hj => ?_, fun i hi => ?_⟩
  · rcases (hseen i).1 hi with rfl | hi
    · exact .inr (List.mem_append_left _ ((hnext j).2 hj))
    · exact hknown (h.closed i hi j hj)
  · rcases hi with hi | hi
    · rcases (hseen i).1 hi with rfl | hi
      · exact h.reached i (.inr List.mem_cons_self)
      · exact h.reached i (.inl hi)
    · rcases List.mem_append.1 hi with hi | hi
      · obtain ⟨s, hs, hway⟩ := h.reached node (.inr List.mem_cons_self)
        exact ⟨s, hs, hway.tail ((hnext i).1 hi)⟩
      · exact h.reached i (.inr (List.mem_cons_of_mem _ hi))

/-- When nothing is pending, all that can be reached has been seen. -/
theorem seen_iff (h : Exploring step start seen []) :
    seen i ↔ ∃ s, start s ∧ Relation.ReflTransGen step s i := by
  constructor
  · exact fun hi => h.reached i (.inl hi)
  · rintro ⟨s, hs, hway⟩
    induction hway with
    | refl => exact (h.known s hs).resolve_right List.not_mem_nil
    | tail _ hj ih => exact (h.closed _ ih _ hj).resolve_right List.not_mem_nil

end Exploring

variable {next : Nat → List Nat} {seen : Array Bool} {pending : List Nat} {i count : Nat}

/-- A node has been marked. -/
def Marked (seen : Array Bool) (i : Nat) : Prop :=
  seen[i]? = some true

theorem getElem?_set_of_lt {α : Type} {xs : Array α} {a : α} (h : i < xs.size) (j : Nat) :
    (xs.setIfInBounds i a)[j]? = if j = i then some a else xs[j]? := by
  rw [Array.getElem?_setIfInBounds, if_pos h]
  simp only [eq_comm]

theorem marked_setIfInBounds {node : Nat} (h : seen[node]? = some false) :
    Marked (seen.setIfInBounds node true) i ↔ i = node ∨ Marked seen i := by
  rw [Marked, Marked, getElem?_set_of_lt (Array.getElem?_eq_some_iff.1 h).1]
  split
  · next heq => exact iff_of_true rfl (.inl heq)
  · next hne => exact (or_iff_right hne).symm

theorem not_marked_replicate (count i : Nat) : ¬ Marked (Array.replicate count false) i := by
  rw [Marked, Array.getElem?_replicate]
  split <;> simp

/-- A step to a node that can be marked. -/
def Within (count : Nat) (next : Nat → List Nat) (i j : Nat) : Prop :=
  j ∈ next i ∧ j < count

section Marks

variable {start : Nat → Prop} {node : Nat} {rest : List Nat} (hsize : seen.size = count)
  (h : Exploring (Within count next) start (Marked seen) ((node :: rest).filter (· < count)))

include hsize h

theorem Exploring.mark (hs : seen[node]? = some false) :
    Exploring (Within count next) start (Marked (seen.setIfInBounds node true))
      (((next node).reverse ++ rest).filter (· < count)) := by
  have hnode : node < count := hsize ▸ (Array.getElem?_eq_some_iff.1 hs).1
  rw [List.filter_cons_of_pos (by simpa using hnode)] at h
  rw [List.filter_append]
  exact h.visit (fun i => marked_setIfInBounds hs) fun i => by simp [Within]

theorem Exploring.skip (hs : seen[node]? = some false → False) :
    Exploring (Within count next) start (Marked seen) (rest.filter (· < count)) := by
  by_cases hnode : node < count
  · rw [List.filter_cons_of_pos (by simpa using hnode)] at h
    refine h.drop ?_
    rw [← hsize] at hnode
    rw [Array.getElem?_eq_getElem hnode] at hs
    rw [Marked, Array.getElem?_eq_getElem hnode]
    cases hvalue : seen[node] with
    | true => rfl
    | false => exact (hs (congrArg some hvalue)).elim
  · rwa [List.filter_cons_of_neg (by simpa using hnode)] at h

end Marks

/-- Nodes are marked just if they can be reached. -/
theorem marked_reachable {starts : List Nat} :
    Marked (reachable count next starts) i ↔
      ∃ s, (s ∈ starts ∧ s < count) ∧ Relation.ReflTransGen (Within count next) s i := by
  have hmarks {seen : Array Bool} {pending : List Nat} (hsize : seen.size = count)
      (h : Exploring (Within count next) (fun s => s ∈ starts ∧ s < count) (Marked seen)
        (pending.filter (· < count))) :
      Marked (marks next seen pending) i ↔
        ∃ s, (s ∈ starts ∧ s < count) ∧ Relation.ReflTransGen (Within count next) s i := by
    fun_induction marks next seen pending with
    | case1 seen => exact h.seen_iff
    | case2 seen node rest hs ih =>
      exact ih (Array.size_setIfInBounds.trans hsize) (h.mark hsize hs)
    | case3 seen node rest hs ih => exact ih hsize (h.skip hsize hs)
  exact hmarks Array.size_replicate (.start_of (not_marked_replicate count) fun i => by simp)

/-- A search meets just what can be reached. -/
theorem search_iff {start : Nat → Prop} {dest : Nat} (hsize : seen.size = count)
    (h : Exploring (Within count next) start (Marked seen) (pending.filter (· < count)))
    (hlt : dest < count) (hdest : ¬ Marked seen dest) :
    search next dest seen pending = true ↔
      ∃ s, start s ∧ Relation.ReflTransGen (Within count next) s dest := by
  fun_induction search next dest seen pending with
  | case1 seen => exact iff_of_false Bool.false_ne_true fun hway => hdest (h.seen_iff.2 hway)
  | case2 seen rest =>
    refine iff_of_true rfl (h.reached dest (.inr ?_))
    exact List.mem_filter.2 ⟨List.mem_cons_self, decide_eq_true hlt⟩
  | case3 seen node rest hne hs ih =>
    refine ih (Array.size_setIfInBounds.trans hsize) (h.mark hsize hs) fun hmarked => ?_
    exact ((marked_setIfInBounds hs).1 hmarked).elim (Ne.symm hne) hdest
  | case4 seen node rest hne hs ih => exact ih hsize (h.skip hsize hs) hdest

end Behavior.Reachability
