import Behavior.Proofs.Execution

/-!
Where the locals of a checked document are. Locals that are known at the same place have slots of
their own, so storing a value in one leaves the others alone, and a vector can be stored number by
number even where it is computed from the local it is stored in.
-/

namespace Behavior

namespace Typed

variable {name : String} {i j slot : Nat}

/-- How many slots a local has. -/
def Local.width (l : Local) : Nat :=
  (l.type?.map ValueType.width).getD 0

/-- Two locals have no slot in common. -/
def Local.Apart (l m : Local) : Prop :=
  l.slot + l.width ≤ m.slot ∨ m.slot + m.width ≤ l.slot

instance : Std.Symm fun x y : String × Local => x.2.Apart y.2 :=
  ⟨fun _ _ h => h.symm⟩

/-- The locals known at a place: their slots are in use, and none is in use twice. -/
structure Laid (n : Nat) (scopes : List Scope) : Prop where
  below : Below n scopes
  apart : scopes.flatten.Pairwise fun x y => x.2.Apart y.2

section

variable {n m : Nat} {scope : Scope} {outer scopes : List Scope}
variable {x : String × Local}

theorem Below.lt (h : Below n scopes) (hx : x ∈ scopes.flatten) : x.2.slot + x.2.width ≤ n := by
  obtain ⟨scope, hscope, hx⟩ := List.mem_flatten.1 hx
  obtain ⟨type, htype, hle⟩ := h scope hscope x hx
  rw [Local.width, htype]
  exact hle

theorem Laid.start (n : Nat) : Laid n [[]] :=
  ⟨.start n, .nil⟩

theorem Laid.mono (h : Laid n scopes) (hnm : n ≤ m) : Laid m scopes :=
  ⟨h.below.mono hnm, h.apart⟩

theorem Laid.block (h : Laid n scopes) : Laid n ([] :: scopes) :=
  ⟨h.below.block, h.apart⟩

theorem Laid.define (h : Laid n (scope :: outer)) (name : String) (type : ValueType) :
    Laid (n + type.width) (scope.define name ⟨n, some type⟩ :: outer) := by
  refine ⟨h.below.define name type, ?_⟩
  have hsublist : (scope.filter (·.1 != name) ++ outer.flatten).Sublist (scope :: outer).flatten :=
    List.filter_sublist.append_right _
  refine List.pairwise_cons.2 ⟨fun x hx => .inr ?_, h.apart.sublist hsublist⟩
  exact h.below.lt (hsublist.subset hx)

theorem Laid.eq_of_shared (h : Laid n scopes) {y : String × Local} (hx : x ∈ scopes.flatten)
    (hy : y ∈ scopes.flatten) (hxi : x.2.slot ≤ i) (hxi' : i < x.2.slot + x.2.width)
    (hyi : y.2.slot ≤ i) (hyi' : i < y.2.slot + y.2.width) : x = y := by
  by_contra hne
  rcases h.apart.forall hx hy hne with hle | hle
  · omega
  · omega

theorem StmtElaborates.keeps_laid {names : Names} {T : Tables} {p p' : Place} {stmt : Behavior.Stmt}
    {t : Stmt} (h : StmtElaborates names T outer p stmt t p') (hp : Laid p.next (p.scope :: outer)) :
    Laid p'.next (p'.scope :: outer) := by
  have hle := h.next_le
  cases h with
  | bind hvalue hfits => exact hp.define _ _
  | _ => exact hp.mono hle

theorem mem_flatten_of_find {l : Local} (h : find scopes name = some l) :
    (name, l) ∈ scopes.flatten := by
  obtain ⟨scope, hscope, hlookup⟩ := List.exists_of_findSome?_eq_some h
  exact List.mem_flatten.2 ⟨scope, hscope, mem_of_lookup hlookup⟩

end

/-! ## What values depend on -/

/-- An expression depends only on known locals; of a vector, on the number at the given place. -/
def ReadsKnown (scopes : List Scope) (j : Nat) (e : Scalar) : Prop :=
  ∀ i, e.Reads i → ∃ x ∈ scopes.flatten, ∃ type, x.2.type? = some type ∧
    (type ≠ .vector3 ∧ i = x.2.slot ∨ type = .vector3 ∧ i = x.2.slot + j)

/-- The numbers of a vector depend only on numbers at the same place of other vectors. -/
def Value.ReadsKnown (scopes : List Scope) : Value → Prop
  | .number e | .bool e | .string e => ∀ j, Typed.ReadsKnown scopes j e
  | .vector v => ∀ j, Typed.ReadsKnown scopes j (v.component j)

section

variable {names : Names} {T : Tables} {scopes : List Scope} {v a b : Value} {e c : Scalar}
  {builtin : Builtin}
variable {xs : List Scalar} {op : BinaryOp} {n : Nat}

theorem Value.readsKnown_of_scalar? (h : v.scalar? = some e) :
    v.ReadsKnown scopes ↔ ∀ j, Typed.ReadsKnown scopes j e := by
  cases v with
  | vector v => cases h
  | _ => cases h; exact Iff.rfl

theorem ReadsKnown.binary {f : BinaryFn} {a b : Scalar} (ha : ReadsKnown scopes j a)
    (hb : ReadsKnown scopes j b) : ReadsKnown scopes j (.binary f a b) := by
  rintro i (hi | hi)
  · exact ha i hi
  · exact hb i hi

theorem ReadsKnown.select {a b : Scalar} (ha : ReadsKnown scopes j a) (hb : ReadsKnown scopes j b)
    (hc : ReadsKnown scopes j c) : ReadsKnown scopes j (.select a b c) := by
  rintro i (hi | hi | hi)
  · exact ha i hi
  · exact hb i hi
  · exact hc i hi

theorem Value.ReadsKnown.combine (ha : a.ReadsKnown scopes) (hb : b.ReadsKnown scopes)
    (h : Value.combine? op a b = some v) : v.ReadsKnown scopes := by
  obtain ⟨e, f, he, hf, hv⟩ := Value.combine?_eq_some h
  rw [readsKnown_of_scalar? hv]
  exact fun j => ((readsKnown_of_scalar? he).1 ha j).binary ((readsKnown_of_scalar? hf).1 hb j)

theorem Value.ReadsKnown.choose (hc : ∀ j, Typed.ReadsKnown scopes j c) (ha : a.ReadsKnown scopes)
    (hb : b.ReadsKnown scopes) (h : Value.select? c a b = some v) :
    v.ReadsKnown scopes := by
  rcases Value.select?_eq_some h with ⟨e, f, he, hf, hv⟩ | ⟨s, t, rfl, rfl, rfl⟩
  · rw [readsKnown_of_scalar? hv]
    exact fun j => (hc j).select ((readsKnown_of_scalar? he).1 ha j) ((readsKnown_of_scalar? hf).1 hb j)
  · exact fun j => (hc j).select (ha j) (hb j)

theorem Value.ReadsKnown.ofLocal {type : ValueType} (h : (name, ⟨slot, some type⟩) ∈ scopes.flatten)
    :
    (Value.ofLocal type slot).ReadsKnown scopes := by
  cases type with
  | vector3 => exact fun j i hi => ⟨_, h, _, rfl, .inr ⟨rfl, hi.symm⟩⟩
  | _ => exact fun j i hi => ⟨_, h, _, rfl, .inl ⟨ValueType.noConfusion, hi.symm⟩⟩

theorem Value.ReadsKnown.ofInput (type : ValueType) (slot : Nat) :
    (Value.ofInput type slot).ReadsKnown scopes := by
  cases type with
  | _ => exact fun j i hi => hi.elim

theorem Builtin.reads_call (h : builtin.call? xs = some e) (hi : e.Reads i) :
    ∃ x ∈ xs, x.Reads i := by
  unfold Builtin.call? at h
  split at h
  case h_1 =>
    cases h
    exact hi.elim
  case h_7 => cases h
  all_goals
    cases h
    simpa [Scalar.Reads] using hi

mutual

/-- An expression depends on known locals. -/
theorem ExprElaborates.readsKnown {e : Expr} {v : Value} (h : ExprElaborates names T scopes e v) :
    v.ReadsKnown scopes := by
  cases h with
  | number | bool | str hstring | constant hfound hresolved hconstant => exact fun j i hi => hi.elim
  | vector hnumbers =>
    have hxs := hnumbers.readsKnown
    intro j
    rw [Triple.component]
    split
    · exact hxs _ List.mem_cons_self j
    · split
      · exact hxs _ (List.mem_cons_of_mem _ List.mem_cons_self) j
      · exact hxs _ (List.mem_cons_of_mem _ (List.mem_cons_of_mem _ List.mem_cons_self)) j
  | ofLocal hfound => exact .ofLocal (mem_flatten_of_find hfound)
  | ofInput hfound hresolved hinput => exact .ofInput ..
  | neg hoperand | not hoperand => exact hoperand.readsKnown
  | binary hleft hright hcombined => exact hleft.readsKnown.combine hright.readsKnown hcombined
  | conditional hcondition hthen helse hselected =>
    exact Value.ReadsKnown.choose hcondition.readsKnown hthen.readsKnown helse.readsKnown hselected
  | call hfunction hargs hcalled =>
    intro j i hi
    obtain ⟨x, hx, hi⟩ := Builtin.reads_call hcalled hi
    exact hargs.readsKnown x hx j i hi

theorem NumbersElaborate.readsKnown {items : List Expr} {xs : List Scalar}
    (h : NumbersElaborate names T scopes items xs) : ∀ x ∈ xs, ∀ j, ReadsKnown scopes j x := by
  cases h with
  | nil => simp
  | cons hhead htail => exact List.forall_mem_cons.2 ⟨hhead.readsKnown, htail.readsKnown⟩

end

/-! ## Storing number by number -/

/-- A value can be stored where no value looks. -/
theorem Value.Within.apart (h : v.Within (extent n)) : v.Apart .locals n := by
  cases v with
  | vector v =>
    have hne {j s : Nat} (hj : j < 3) (hs : n ≤ s) : ¬ (v.component j).Reads s := fun hread =>
      Nat.not_lt.2 hs (hread.lt (Triple.within_component h hj))
    exact ⟨hne (by decide) (Nat.le_refl n), hne (by decide) (Nat.le_refl n),
      hne (by decide) (Nat.le_succ n)⟩
  | _ => trivial

theorem width_pos (type : ValueType) : 0 < type.width := by
  cases type <;> decide

/-- A value can be stored in a known local: where it depends on that local, it depends on numbers at
their own places. -/
theorem Value.ReadsKnown.apart (hlaid : Laid n scopes) (h : v.ReadsKnown scopes)
    (hmem : (name, ⟨slot, some v.type⟩) ∈ scopes.flatten) : v.Apart .locals slot := by
  cases v with
  | vector v =>
    have hne {j s : Nat} (hj : j < 3) (hs : slot ≤ s) (hs' : s < slot + j) :
        ¬ (v.component j).Reads s := by
      intro hread
      obtain ⟨x, hx, type, htype, hplace⟩ := h j s hread
      have hwidth : x.2.width = type.width := by rw [Local.width, htype]; rfl
      have hpos := width_pos type
      have hshared : x.2.slot ≤ s ∧ s < x.2.slot + x.2.width := by
        rcases hplace with ⟨-, rfl⟩ | ⟨rfl, rfl⟩
        · omega
        · exact ⟨Nat.le_add_right _ _, by rw [hwidth]; exact Nat.add_lt_add_left hj _⟩
      have hlt : s < slot + 3 := by omega
      cases hlaid.eq_of_shared hx hmem hshared.1 hshared.2 hs hlt
      rcases hplace with ⟨hscalar, -⟩ | ⟨-, rfl⟩
      · exact hscalar (Option.some.inj htype).symm
      · exact Nat.lt_irrefl _ hs'
    exact ⟨hne (by decide) (Nat.le_refl _) (Nat.lt_succ_self _), hne (by decide) (Nat.le_refl _)
      (by omega), hne (by decide) (Nat.le_succ _) (by omega)⟩
  | _ => trivial

mutual

theorem StmtElaborates.apart {outer : List Scope} {p p' : Place} {stmt : Behavior.Stmt} {t : Stmt}
    (h : StmtElaborates names T outer p stmt t p') (hp : Laid p.next (p.scope :: outer)) :
    t.Apart := by
  cases h with
  | bind hvalue hfits => exact (hvalue.within (covers_extent _) hp.below).apart
  | assignLocal hvalue hfound => exact hvalue.readsKnown.apart hp (mem_flatten_of_find hfound)
  | branch hcondition hthen helse =>
    exact ⟨hthen.apart hp.block, helse.apart (hp.mono hthen.next_le).block⟩
  | loop hcount hfits hbody => exact hbody.apart (hp.mono (Nat.le_succ _)).block
  | _ => trivial

/-- Locals are assigned values that can be stored number by number. -/
theorem StmtsElaborate.apart {outer : List Scope} {p p' : Place} {stmts : List Behavior.Stmt}
    {ts : List Stmt} (h : StmtsElaborate names T outer p stmts ts p')
    (hp : Laid p.next (p.scope :: outer)) : Stmt.AllApart ts := by
  cases h with
  | nil => trivial
  | cons hhead htail => exact ⟨hhead.apart hp, htail.apart (hhead.keeps_laid hp)⟩

end

/-! ## Documents without random numbers -/

/-- Evaluating a value, or choosing between the alternatives of one, draws no random numbers. -/
def Value.Settled : Value → Prop
  | .number e | .bool e | .string e => e.isPure = true
  | .vector v => v.Settled

theorem Value.Settled.steady (h : v.Settled) : v.Steady := by
  cases v with
  | vector v =>
    cases v with
    | select condition a b => exact h.2
    | _ => trivial
  | _ => trivial

theorem Value.settled_of_scalar? (h : v.scalar? = some e) :
    v.Settled ↔ e.isPure = true := by
  cases v with
  | vector v => cases h
  | _ => cases h; exact Iff.rfl

theorem Value.Settled.combine (ha : a.Settled) (hb : b.Settled) (h : Value.combine? op a b = some v)
    :
    v.Settled := by
  obtain ⟨e, f, he, hf, hv⟩ := Value.combine?_eq_some h
  rw [settled_of_scalar? he] at ha
  rw [settled_of_scalar? hf] at hb
  rw [settled_of_scalar? hv, Scalar.isPure, ha, hb]
  rfl

theorem Value.Settled.choose (hc : c.isPure = true) (ha : a.Settled) (hb : b.Settled)
    (h : Value.select? c a b = some v) : v.Settled := by
  rcases Value.select?_eq_some h with ⟨e, f, he, hf, hv⟩ | ⟨s, t, rfl, rfl, rfl⟩
  · rw [settled_of_scalar? he] at ha
    rw [settled_of_scalar? hf] at hb
    rw [settled_of_scalar? hv, Scalar.isPure, hc, ha, hb]
    rfl
  · exact ⟨hc, ha, hb⟩

theorem Builtin.ofName?_ne_random {function : String} (h : Builtin.ofName? function = some builtin)
    (hne : function ≠ "random") :
    builtin ≠ .random := by
  unfold Builtin.ofName? at h
  split at h
  case h_1 => exact absurd rfl hne
  case h_7 => cases h
  all_goals
    cases h
    exact Builtin.noConfusion

theorem Builtin.isPure_call (hne : builtin ≠ .random) (hxs : ∀ x ∈ xs, x.isPure = true)
    (h : builtin.call? xs = some e) : e.isPure = true := by
  unfold Builtin.call? at h
  split at h
  case h_1 => exact absurd rfl hne
  case h_7 => cases h
  all_goals
    cases h
    simpa [Scalar.isPure, and_assoc] using hxs

mutual

theorem ExprElaborates.settled {e : Expr} {v : Value} (h : ExprElaborates names T scopes e v)
    (he : e.isRandomFree = true) : v.Settled := by
  cases h with
  | number => rfl
  | bool => rfl
  | str hstring => rfl
  | vector hnumbers => trivial
  | @ofLocal _ _ _ type hfound | @ofInput _ _ _ type _ hfound hresolved hinput =>
    cases type with
    | vector3 => trivial
    | _ => rfl
  | constant hfound hresolved hconstant => rfl
  | neg hoperand | not hoperand => exact hoperand.settled he
  | binary hleft hright hcombined =>
    rw [Expr.isRandomFree, Bool.and_eq_true] at he
    exact (hleft.settled he.1).combine (hright.settled he.2) hcombined
  | conditional hcondition hthen helse hselected =>
    rw [Expr.isRandomFree, Bool.and_eq_true, Bool.and_eq_true] at he
    exact Value.Settled.choose (hcondition.settled he.1.1) (hthen.settled he.1.2)
      (helse.settled he.2) hselected
  | call hfunction hargs hcalled =>
    rw [Expr.isRandomFree, Bool.and_eq_true, bne_iff_ne] at he
    exact Builtin.isPure_call (Builtin.ofName?_ne_random hfunction he.1) (hargs.settled he.2) hcalled

theorem NumbersElaborate.settled {items : List Expr} {xs : List Scalar}
    (h : NumbersElaborate names T scopes items xs) (he : Expr.allRandomFree items = true) :
    ∀ x ∈ xs, x.isPure = true := by
  cases h with
  | nil => simp
  | cons hhead htail =>
    rw [Expr.allRandomFree, Bool.and_eq_true] at he
    exact List.forall_mem_cons.2 ⟨hhead.settled he.1, htail.settled he.2⟩

end

mutual

theorem StmtElaborates.steady {outer : List Scope} {p p' : Place} {stmt : Behavior.Stmt} {t : Stmt}
    (h : StmtElaborates names T outer p stmt t p') (he : ∀ e ∈ stmt.exprs, e.isRandomFree = true) :
    t.Steady := by
  cases h with
  | bind hvalue hfits | assignLocal hvalue hfound | assignOutput hvalue hfound hresolved houtput =>
    exact (hvalue.settled (he _ List.mem_cons_self)).steady
  | intent hvalue hurgency hresolved hchannel =>
    exact (hvalue.settled (he _ List.mem_cons_self)).steady
  | branch hcondition hthen helse =>
    rw [Stmt.exprs] at he
    exact ⟨hthen.steady fun e h => he e (List.mem_cons_of_mem _ (List.mem_append_left _ h)),
      helse.steady fun e h => he e (List.mem_cons_of_mem _ (List.mem_append_right _ h))⟩
  | loop hcount hfits hbody =>
    rw [Stmt.exprs] at he
    exact hbody.steady he
  | _ => trivial

/-- Without random numbers, all values are steady. -/
theorem StmtsElaborate.steady {outer : List Scope} {p p' : Place} {stmts : List Behavior.Stmt}
    {ts : List Stmt} (h : StmtsElaborate names T outer p stmts ts p')
    (he : ∀ e ∈ Stmt.allExprs stmts, e.isRandomFree = true) : Stmt.AllSteady ts := by
  cases h with
  | nil => trivial
  | cons hhead htail =>
    rw [Stmt.allExprs] at he
    exact ⟨hhead.steady fun e h => he e (List.mem_append_left _ h),
      htail.steady fun e h => he e (List.mem_append_right _ h)⟩

end

end

end Typed

end Behavior
