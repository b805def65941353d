/-!
Computations that can fail, taken apart.
-/

namespace Behavior

variable {ε α β : Type} {f : α → Except ε β} {xs : Array α}

/-- A sequence succeeds when both parts do. -/
theorem bind_eq_ok {x : Except ε α} {b : β} :
    x >>= f = .ok b ↔ ∃ a, x = .ok a ∧ f a = .ok b := by
  cases x with
  | error e =>
    constructor
    · intro h
      cases h
    · rintro ⟨a, h, -⟩
      cases h
  | ok a =>
    constructor
    · intro h
      exact ⟨a, rfl, h⟩
    · rintro ⟨a', h, hf⟩
      cases h
      exact hf

/-- A mapped result comes from a result. -/
theorem map_eq_ok {x : Except ε α} {f : α → β} {b : β} :
    x.map f = .ok b ↔ ∃ a, x = .ok a ∧ f a = b := by
  cases x with
  | error e =>
    constructor
    · intro h
      cases h
    · rintro ⟨a, h, -⟩
      cases h
  | ok a =>
    constructor
    · intro h
      cases h
      exact ⟨a, rfl, rfl⟩
    · rintro ⟨a', h, rfl⟩
      cases h
      rfl

/-- Renaming errors leaves results alone. -/
theorem mapError_eq_ok {ε' : Type} {g : ε → ε'} {x : Except ε α} {a : α} :
    x.mapError g = .ok a ↔ x = .ok a := by
  cases x with
  | error e => exact iff_of_false nofun nofun
  | ok a' =>
    constructor
    · intro h
      cases h
      rfl
    · intro h
      cases h
      rfl

/-- Whatever comes after a condition that throws has not met it. -/
theorem ok_of_guard {c : Prop} [Decidable c] {e : ε} {k : PUnit → Except ε α} {a : α}
    (h : (if c then throw e >>= k else k ⟨⟩) = .ok a) : ¬ c ∧ k ⟨⟩ = .ok a := by
  split at h
  · cases h
  · next hc => exact ⟨hc, h⟩

/-- Entries of a list that has been converted entry by entry. -/
theorem mapM_list_getElem? {xs : List α} {ys : List β} (h : xs.mapM f = .ok ys) {i : Nat} {x : α}
    (hx : xs[i]? = some x) :
    ∃ y, ys[i]? = some y ∧ f x = .ok y := by
  induction xs generalizing ys i with
  | nil => cases hx
  | cons a rest ih =>
    rw [List.mapM_cons] at h
    obtain ⟨b, hb, h⟩ := bind_eq_ok.1 h
    obtain ⟨bs, hbs, h⟩ := bind_eq_ok.1 h
    cases h
    cases i with
    | zero =>
      cases hx
      exact ⟨b, rfl, hb⟩
    | succ i => exact ih hbs hx

/-- Entries of a table that has been converted entry by entry. -/
theorem mapM_array_getElem? {ys : Array β} (h : xs.mapM f = .ok ys) {i : Nat} {x : α}
    (hx : xs[i]? = some x) :
    ∃ y, ys[i]? = some y ∧ f x = .ok y := by
  rw [Array.mapM_eq_mapM_toList] at h
  obtain ⟨zs, hzs, h⟩ := map_eq_ok.1 h
  subst h
  rw [← Array.getElem?_toList] at hx
  obtain ⟨y, hy, hf⟩ := mapM_list_getElem? hzs hx
  exact ⟨y, by simpa using hy, hf⟩

theorem mapM_array_size {ys : Array β} (h : xs.mapM f = .ok ys) : ys.size = xs.size := by
  have hlist : ∀ (xs : List α) (ys : List β), xs.mapM f = .ok ys → ys.length = xs.length := by
    intro xs
    induction xs with
    | nil =>
      rintro ys ⟨⟩
      rfl
    | cons x rest ih =>
      intro ys h
      rw [List.mapM_cons] at h
      obtain ⟨b, -, h⟩ := bind_eq_ok.1 h
      obtain ⟨bs, hbs, h⟩ := bind_eq_ok.1 h
      cases h
      exact congrArg (· + 1) (ih bs hbs)
  rw [Array.mapM_eq_mapM_toList] at h
  obtain ⟨zs, hzs, rfl⟩ := map_eq_ok.1 h
  exact hlist xs.toList zs hzs

/-- A table can be converted if each of its entries can. -/
theorem mapM_array_of_forall (h : ∀ x ∈ xs, ∃ y, f x = .ok y) : ∃ ys, xs.mapM f = .ok ys := by
  have hlist : ∀ xs : List α, (∀ x ∈ xs, ∃ y, f x = .ok y) → ∃ ys, xs.mapM f = .ok ys := by
    intro xs
    induction xs with
    | nil => exact fun _ => ⟨[], rfl⟩
    | cons x rest ih =>
      intro h
      obtain ⟨⟨y, hy⟩, hrest⟩ := List.forall_mem_cons.1 h
      obtain ⟨ys, hys⟩ := ih hrest
      refine ⟨y :: ys, ?_⟩
      rw [List.mapM_cons]
      exact bind_eq_ok.2 ⟨y, hy, bind_eq_ok.2 ⟨ys, hys, rfl⟩⟩
  obtain ⟨ys, hys⟩ := hlist xs.toList fun x hx => h x (Array.mem_toList_iff.1 hx)
  refine ⟨ys.toArray, ?_⟩
  rw [Array.mapM_eq_mapM_toList]
  exact map_eq_ok.2 ⟨ys, hys, rfl⟩

/-- Actions on the entries of a list succeed if each of them does. -/
theorem forM_list_of_forall {f : α → Except ε PUnit} {xs : List α} (h : ∀ x ∈ xs, f x = .ok ⟨⟩) :
    xs.forM f = .ok ⟨⟩ := by
  induction xs with
  | nil => rfl
  | cons x rest ih =>
    obtain ⟨hx, hrest⟩ := List.forall_mem_cons.1 h
    show (f x >>= fun _ => rest.forM f) = .ok ⟨⟩
    rw [hx]
    exact ih hrest

end Behavior
