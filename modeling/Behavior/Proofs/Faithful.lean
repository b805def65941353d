import Behavior.Proofs.FlowOrder
import Behavior.Proofs.LocalSlots
import Behavior.Proofs.WholeNumbers

/-!
Checked documents mean what the documents mean. Locals of a document are looked up by name in the
blocks around a statement; checked statements have them in slots. Seen through the slots of the
locals that are known at a place, memory is what the document has there.
-/

namespace Behavior

namespace Typed

open Meaning (World Store)

variable {i count : Nat}

/-! ## Locals -/

/-- What a local holds. -/
def Local.datum (locals : Nat → Float) (l : Local) : Datum :=
  .read (l.type?.getD .number) locals l.slot

/-- What the locals of a block hold. -/
def Scope.view (locals : Nat → Float) (scope : Scope) : Meaning.Scope :=
  scope.map fun x => (x.1, x.2.datum locals)

def view (locals : Nat → Float) (scopes : List Scope) : List Meaning.Scope :=
  scopes.map (Scope.view locals)

section

variable {locals locals' : Nat → Float} {scope : Scope} {outer scopes : List Scope} {name : String}
  {l : Local} {n : Nat}

theorem lookup_view (locals : Nat → Float) (scope : Scope) (name : String) :
    (scope.view locals).lookup name = (scope.lookup name).map (Local.datum locals) := by
  induction scope with
  | nil => rfl
  | cons x rest ih =>
    obtain ⟨name', l⟩ := x
    rw [Scope.view, List.map_cons, List.lookup_cons, List.lookup_cons]
    cases name == name' with
    | true => rfl
    | false => exact ih

theorem find_view (locals : Nat → Float) (scopes : List Scope) (name : String) :
    Meaning.find (view locals scopes) name = (find scopes name).map (Local.datum locals) := by
  rw [Meaning.find, find, view, List.findSome?_map, List.map_findSome?]
  exact congrArg (List.findSome? · scopes) (funext fun scope => lookup_view locals scope name)

theorem Local.datum_congr {type : ValueType} (htype : l.type? = some type)
    (h : ∀ i, l.slot ≤ i → i < l.slot + l.width → locals' i = locals i) :
    l.datum locals' = l.datum locals := by
  have hwidth : l.width = type.width := by rw [Local.width, htype]; rfl
  rw [hwidth] at h
  rw [Local.datum, Local.datum, htype]
  cases type with
  | vector3 =>
    have hpart {j : Nat} (hj : j < 3) : locals' (l.slot + j) = locals (l.slot + j) :=
      h _ (Nat.le_add_right ..) (Nat.add_lt_add_left hj _)
    have h₀ : locals' l.slot = locals l.slot := hpart (j := 0) (by decide)
    show Datum.vector _ _ _ = Datum.vector _ _ _
    rw [h₀, hpart (by decide : 1 < 3), hpart (by decide : 2 < 3)]
  | _ => exact congrArg Datum.scalar (h l.slot (Nat.le_refl _) (Nat.lt_succ_self _))

/-- The slots of known locals. -/
def Occupied (scopes : List Scope) (i : Nat) : Prop :=
  ∃ x ∈ scopes.flatten, x.2.slot ≤ i ∧ i < x.2.slot + x.2.width

theorem Below.type (h : Below n scopes) {x : String × Local} (hx : x ∈ scopes.flatten) :
    ∃ type, x.2.type? = some type := by
  obtain ⟨scope, hscope, hx⟩ := List.mem_flatten.1 hx
  obtain ⟨type, htype, -⟩ := h scope hscope x hx
  exact ⟨type, htype⟩

theorem Below.occupied_lt (h : Below n scopes) (hi : Occupied scopes i) : i < n := by
  obtain ⟨x, hx, -, hlt⟩ := hi
  exact Nat.lt_of_lt_of_le hlt (h.lt hx)

theorem view_congr (h : Below n scopes) (hsame : ∀ i, Occupied scopes i → locals' i = locals i) :
    view locals' scopes = view locals scopes := by
  refine List.map_congr_left fun scope hscope => List.map_congr_left fun x hx => ?_
  have hx : x ∈ scopes.flatten := List.mem_flatten.2 ⟨scope, hscope, hx⟩
  obtain ⟨type, htype⟩ := h.type hx
  rw [Local.datum_congr htype fun i hle hlt => hsame i ⟨x, hx, hle, hlt⟩]

/-- A new local gets its value when its slots do. -/
theorem define_view {type : ValueType} (h : Below n (scope :: outer))
    (hsame : ∀ i < n, locals' i = locals i) (name : String) :
    Meaning.define name (.read type locals' n) (view locals (scope :: outer)) =
      view locals' (scope.define name ⟨n, some type⟩ :: outer) := by
  rw [← view_congr h fun i hi => hsame i (h.occupied_lt hi)]
  show (_ :: (scope.view locals').filter _) :: _ = _
  rw [Scope.view, List.filter_map]
  rfl

/-- A local known beside another does not change with it. -/
theorem Local.Apart.datum {m : Local} {type : ValueType} (h : l.Apart m)
    (htype : l.type? = some type)
    (hsame : ∀ i, ¬ (m.slot ≤ i ∧ i < m.slot + m.width) → locals' i = locals i) :
    l.datum locals' = l.datum locals := by
  refine Local.datum_congr htype fun i hle hlt => hsame i fun hi => ?_
  rcases h with h | h
  · omega
  · omega

theorem assignIn_view (hlookup : scope.lookup name = some l)
    (htypes : ∀ x ∈ scope, ∃ type, x.2.type? = some type)
    (hapart : scope.Pairwise fun x y => x.2.Apart y.2)
    (hsame : ∀ i, ¬ (l.slot ≤ i ∧ i < l.slot + l.width) → locals' i = locals i) :
    Meaning.assignIn name (l.datum locals') (scope.view locals) = scope.view locals' := by
  induction scope with
  | nil => cases hlookup
  | cons x rest ih =>
    obtain ⟨name', m⟩ := x
    obtain ⟨hhead, hrest⟩ := List.pairwise_cons.1 hapart
    rw [List.lookup_cons] at hlookup
    show (if name' == name then _ else _) = _
    rw [BEq.comm]
    cases hname : name == name' with
    | true =>
      rw [hname] at hlookup
      cases hlookup
      refine congrArg (_ :: ·) (List.map_congr_left fun y hy => ?_)
      obtain ⟨type, htype⟩ := htypes y (List.mem_cons_of_mem _ hy)
      rw [Local.Apart.datum (hhead y hy).symm htype hsame]
    | false =>
      rw [hname] at hlookup
      obtain ⟨type, htype⟩ := htypes (name', m) List.mem_cons_self
      have hm : m.datum locals' = m.datum locals :=
        Local.Apart.datum (hhead _ (mem_of_lookup hlookup)) htype hsame
      have htail := ih hlookup (fun x hx => htypes x (List.mem_cons_of_mem _ hx)) hrest
      show (name', m.datum locals) :: Meaning.assignIn name _ _ = _
      rw [← hm]
      exact congrArg (_ :: ·) htail

/-- A local gets another value when its slots do. -/
theorem assign_view (h : Laid n scopes) (hfound : find scopes name = some l)
    (hsame : ∀ i, ¬ (l.slot ≤ i ∧ i < l.slot + l.width) → locals' i = locals i) :
    Meaning.assign name (l.datum locals') (view locals scopes) = view locals' scopes := by
  induction scopes with
  | nil => cases hfound
  | cons scope outer ih =>
    obtain ⟨hscope, houter, hcross⟩ := List.pairwise_append.1 h.apart
    have htypes : ∀ x ∈ scope ++ outer.flatten, ∃ type, x.2.type? = some type :=
      fun x hx => h.below.type hx
    rw [find, List.findSome?_cons] at hfound
    show (if ((scope.view locals).lookup name).isSome then _ else _) = _
    rw [lookup_view]
    cases hlookup : scope.lookup name with
    | some l' =>
      rw [hlookup] at hfound
      cases hfound
      have hassigned := assignIn_view hlookup (fun x hx => htypes x (List.mem_append_left _ hx))
        hscope hsame
      have hkept : view locals' outer = view locals outer := by
        refine List.map_congr_left fun scope' hscope' => List.map_congr_left fun x hx => ?_
        have hx : x ∈ outer.flatten := List.mem_flatten.2 ⟨scope', hscope', hx⟩
        obtain ⟨type, htype⟩ := htypes x (List.mem_append_right _ hx)
        rw [Local.Apart.datum (hcross _ (mem_of_lookup hlookup) x hx).symm htype hsame]
      exact congrArg₂ List.cons hassigned hkept.symm
    | none =>
      rw [hlookup] at hfound
      have hkept : scope.view locals' = scope.view locals := by
        refine List.map_congr_left fun x hx => ?_
        obtain ⟨type, htype⟩ := htypes x (List.mem_append_left _ hx)
        rw [Local.Apart.datum (hcross x hx _ (mem_flatten_of_find hfound)) htype hsame]
      have hlaid : Laid n outer :=
        ⟨fun scope' hscope' => h.below scope' (List.mem_cons_of_mem _ hscope'), houter⟩
      exact congrArg₂ List.cons hkept.symm (ih hlaid hfound)

end

/-! ## Expressions -/

/-- A world in which names and texts mean what they do in checked documents. -/
structure Fits (names : Names) (T : Tables) (W : World) : Prop where
  resolve : ∀ name, W.names.resolve? name = names.resolve? name
  schema : W.schema = T.schema
  handle : ∀ {text : String} {i : Nat}, T.strings.findIdx? (· == text) = some i →
    W.handle text = Float.ofNat i

section

variable {names : Names} {T : Tables} {W : World} {scopes : List Scope}
variable {e : Scalar} {v : Value}

theorem Value.eval_of_scalar? (h : v.scalar? = some e) (inputs : Array Float) (locals : Nat → Float)
    (r : Tape) :
    v.eval inputs locals r =
      (.scalar (e.eval inputs locals r).1, (e.eval inputs locals r).2) := by
  cases v with
  | vector v => cases h
  | _ => cases h; rfl

theorem Value.eval_select {c : Scalar} {a b : Value} (h : Value.select? c a b = some v)
    (inputs : Array Float) (locals : Nat → Float) (r : Tape) :
    v.eval inputs locals r =
      let x := c.eval inputs locals r
      if truthy x.1 then a.eval inputs locals x.2 else b.eval inputs locals x.2 := by
  rcases Value.select?_eq_some h with ⟨x, y, hx, hy, hv⟩ | ⟨s, t, rfl, rfl, rfl⟩
  · simp only [eval_of_scalar? hx, eval_of_scalar? hy, eval_of_scalar? hv, Scalar.eval]
    split
    · rfl
    · rfl
  · simp only [Value.eval, Triple.eval]
    split
    · rfl
    · rfl

theorem Value.eval_ofLocal (type : ValueType) (slot : Nat) (inputs : Array Float)
    (locals : Nat → Float) (r : Tape) :
    (Value.ofLocal type slot).eval inputs locals r = (.read type locals slot, r) := by
  cases type <;> rfl

theorem Value.eval_ofInput (type : ValueType) (slot : Nat) (inputs : Array Float)
    (locals : Nat → Float) (r : Tape) :
    (Value.ofInput type slot).eval inputs locals r = (.read type (inputs.getD · 0.0) slot, r) := by
  cases type <;> rfl

/-- The values of some expressions, evaluated one after another. -/
def evalAll (inputs : Array Float) (locals : Nat → Float) :
    List Scalar → Tape → List Float × Tape
  | [], r => ([], r)
  | x :: rest, r =>
    let y := x.eval inputs locals r
    let ys := evalAll inputs locals rest y.2
    (y.1 :: ys.1, ys.2)

theorem Builtin.apply_call {builtin : Builtin} {xs : List Scalar} (h : builtin.call? xs = some e)
    (inputs : Array Float) (locals : Nat → Float) (r : Tape) :
    builtin.apply? (evalAll inputs locals xs r).1 (evalAll inputs locals xs r).2 =
      some (e.eval inputs locals r) := by
  unfold Builtin.call? at h
  split at h
  case h_7 => cases h
  all_goals
    cases h
    rfl

mutual

/-- Values are what expressions evaluate to. -/
theorem ExprElaborates.eval {e : Expr} {v : Value} (h : ExprElaborates names T scopes e v)
    (hW : Fits names T W) (locals : Nat → Float) (r : Tape) :
    W.eval (view locals scopes) e r = some (v.eval W.inputs locals r) := by
  cases h with
  | number => rfl
  | bool => rfl
  | str hstring => rw [World.eval, hW.handle hstring]; rfl
  | vector hnumbers =>
    rw [World.eval, hnumbers.eval hW locals r]
    rfl
  | ofLocal hfound =>
    rw [World.eval, find_view, hfound, Value.eval_ofLocal]
    rfl
  | ofInput hfound hresolved hinput =>
    rw [World.eval, find_view, hfound, World.value?, hW.resolve, hresolved, hW.schema,
      Value.eval_ofInput]
    dsimp only [Option.map_none]
    rw [hinput]
    rfl
  | constant hfound hresolved hconstant =>
    rw [World.eval, find_view, hfound, World.value?, hW.resolve, hresolved, hconstant]
    rfl
  | neg hoperand | not hoperand =>
    rw [World.eval, hoperand.eval hW locals r]
    rfl
  | @binary _ _ _ _ a b _ hleft hright hcombined =>
    obtain ⟨x, y, hx, hy, hv⟩ := Value.combine?_eq_some hcombined
    rw [World.eval, hleft.eval hW locals r, Value.eval_of_scalar? hx, Option.bind_eq_bind,
      Option.bind_some]
    dsimp only
    rw [hright.eval hW locals, Value.eval_of_scalar? hy, Value.eval_of_scalar? hv]
    rfl
  | @conditional _ _ _ _ c a b _ hcondition hthen helse hselected =>
    rw [World.eval, hcondition.eval hW locals r, Option.bind_eq_bind, Option.bind_some,
      Value.eval_select hselected]
    dsimp only [Value.eval, Datum.scalar?, Option.bind_eq_bind, Option.bind_some]
    rw [hthen.eval hW locals, helse.eval hW locals]
    split
    · rfl
    · rfl
  | call hfunction hargs hcalled =>
    rw [World.eval, hfunction, hargs.eval hW locals r, Option.bind_eq_bind, Option.bind_some,
      Option.bind_eq_bind, Option.bind_some]
    dsimp only
    rw [Builtin.apply_call hcalled]
    rfl

theorem NumbersElaborate.eval {items : List Expr} {xs : List Scalar}
    (h : NumbersElaborate names T scopes items xs) (hW : Fits names T W) (locals : Nat → Float)
    (r : Tape) :
    W.evalNumbers (view locals scopes) items r = some (evalAll W.inputs locals xs r) := by
  cases h with
  | nil => rfl
  | cons hhead htail =>
    rw [World.evalNumbers, hhead.eval hW locals r, Option.bind_eq_bind, Option.bind_some]
    dsimp only
    rw [htail.eval hW locals]
    rfl

end

end

/-! ## Statements -/

section

variable {σ σ' σ₁ σ₂ : Memory} {inputs : Array Float}
variable {s : Store}

theorem Memory.putAll_locals (σ : Memory) {slot : Nat} {xs : List Float}
    (hi : i < slot ∨ slot + xs.length ≤ i) : (σ.putAll .locals slot xs).locals i = σ.locals i := by
  induction xs generalizing σ slot with
  | nil => rfl
  | cons x rest ih =>
    rw [List.length_cons] at hi
    rw [Memory.putAll, ih _ (by omega)]
    exact Function.update_of_ne (by omega) ..

theorem Memory.putAll_outputs (σ : Memory) (slot : Nat) (xs : List Float) :
    (σ.putAll .outputs slot xs).locals = σ.locals ∧
      (σ.putAll .outputs slot xs).outputs = writeAll σ.outputs slot xs := by
  induction xs generalizing σ slot with
  | nil => exact ⟨rfl, rfl⟩
  | cons x rest ih => exact ih ..

theorem Memory.store_outputs (inputs : Array Float) (σ : Memory) (slot : Nat) (v : Value) :
    (σ.store inputs .outputs slot v).locals = σ.locals ∧
      (σ.store inputs .outputs slot v).outputs =
        writeAll σ.outputs slot (v.eval inputs σ.locals σ.tape).1.numbers :=
  σ.putAll_outputs ..

theorem Memory.outputs_putAll (σ : Memory) (slot : Nat) (xs : List Float) :
    (σ.putAll .locals slot xs).outputs = σ.outputs := by
  induction xs generalizing σ slot with
  | nil => rfl
  | cons x rest ih => exact ih ..

theorem Value.length_numbers (v : Value) (inputs : Array Float) (locals : Nat → Float) (r : Tape) :
    (v.eval inputs locals r).1.numbers.length = v.type.width := by
  cases v <;> rfl

/-- A stored value can be read where it is stored. -/
theorem Memory.read_store (inputs : Array Float) (σ : Memory) (slot : Nat) (v : Value) :
    Datum.read v.type (σ.store inputs .locals slot v).locals slot =
      (v.eval inputs σ.locals σ.tape).1 := by
  cases v with
  | vector v =>
    have hne : slot ≠ slot + 1 + 1 := by omega
    simp [Memory.store, Value.eval, Value.type, Datum.read, Datum.numbers, Memory.putAll, Memory.put,
      Function.update_of_ne hne]
  | _ =>
    simp [Memory.store, Value.eval, Value.type, Datum.read, Datum.numbers, Memory.putAll, Memory.put]

/-- A store has what memory holds. What it has of locals counts only while statements go on. -/
structure Memory.Shows (σ : Memory) (ending : Ending) (scopes : List Scope) (s : Store) : Prop where
  scopes : ending = .done → s.scopes = view σ.locals scopes
  outputs : s.outputs = σ.outputs
  tape : s.tape = σ.tape

theorem Memory.shows_outputs (inputs : Array Float) (σ : Memory) (slot : Nat) (v : Value)
    (scopes : List Scope) :
    (σ.store inputs .outputs slot v).Shows .done scopes
      ⟨view σ.locals scopes, writeAll σ.outputs slot (v.eval inputs σ.locals σ.tape).1.numbers,
        (v.eval inputs σ.locals σ.tape).2⟩ where
  scopes _ := congrArg (view · scopes) (σ.store_outputs ..).1.symm
  outputs := (σ.store_outputs ..).2.symm
  tape := rfl

theorem Memory.Shows.left {σ : Memory} {ending : Ending} {scopes scopes' : List Scope}
    (h : σ.Shows ending scopes s) (hne : ending ≠ .done) : σ.Shows ending scopes' s :=
  ⟨fun hdone => absurd hdone hne, h.outputs, h.tape⟩

/-- Of the slots to watch, only those of known locals and those from `n` up to `n'` may change. -/
def Spares (watched : Nat → Prop) (scopes : List Scope) (n n' : Nat) (locals locals' : Nat → Float) :
    Prop :=
  ∀ i, watched i → ¬ Occupied scopes i → (i < n ∨ n' ≤ i) → locals' i = locals i

/-- Statements between two places end alike whether they work on memory or on a store. -/
inductive Mirrors (watched : Nat → Prop) (outer : List Scope) (p p' : Place) (locals : Nat → Float) :
    Option (Memory × Ending) → Option (Store × Ending) → Prop
  | intro {σ' : Memory} {s' : Store} {ending : Ending}
      (shows : σ'.Shows ending (p'.scope :: outer) s')
      (spares : Spares watched (p.scope :: outer) p.next p'.next locals σ'.locals) :
      Mirrors watched outer p p' locals (some (σ', ending)) (some (s', ending))

/-- Entering a flow by its number and by its name ends alike, and leaves the slots to watch alone. -/
def EntersAlike (watched : Nat → Prop) (enter : Nat → Memory → Option (Memory × Ending))
    (enter' : String → Store → Option (Store × Ending)) (flow : Nat) (name : String) : Prop :=
  ∀ (σ : Memory) (s : Store), s.outputs = σ.outputs → s.tape = σ.tape → ∃ σ' ending,
    enter flow σ = some (σ', ending) ∧
      enter' name s = some ({ s with outputs := σ'.outputs, tape := σ'.tape }, ending) ∧
      ∀ i, watched i → σ'.locals i = σ.locals i

/-- Known locals have slots of their own, all of them in the part that belongs to their flow. -/
structure Homed (first n : Nat) (scopes : List Scope) : Prop extends Laid n scopes where
  first_le : first ≤ n
  above : ∀ x ∈ scopes.flatten, first ≤ x.2.slot

section

variable {first n m : Nat} {scope : Scope} {outer scopes : List Scope}
variable {stmt : Behavior.Stmt} {names : Names} {T : Tables} {t : Stmt} {p' p : Place}

theorem Homed.mono (h : Homed first n scopes) (hle : n ≤ m) : Homed first m scopes :=
  ⟨h.toLaid.mono hle, Nat.le_trans h.first_le hle, h.above⟩

theorem Homed.block (h : Homed first n scopes) : Homed first n ([] :: scopes) :=
  ⟨h.toLaid.block, h.first_le, h.above⟩

theorem Homed.first_le_of_occupied (h : Homed first n scopes) (hi : Occupied scopes i) :
    first ≤ i := by
  obtain ⟨x, hx, hle, -⟩ := hi
  exact Nat.le_trans (h.above x hx) hle

theorem StmtElaborates.keeps_homed (h : StmtElaborates names T outer p stmt t p')
    (hp : Homed first p.next (p.scope :: outer)) : Homed first p'.next (p'.scope :: outer) := by
  have hle := h.next_le
  refine ⟨h.keeps_laid hp.toLaid, Nat.le_trans hp.first_le hle, ?_⟩
  cases h with
  | bind hvalue hfits =>
    refine List.forall_mem_cons.2 ⟨hp.first_le, fun x hx => hp.above x ?_⟩
    exact (List.filter_sublist.append_right _).subset hx
  | _ => exact hp.above

/-- A statement adds at most slots that were free before it to those of known locals. -/
theorem StmtElaborates.occupied (h : StmtElaborates names T outer p stmt t p')
    (hi : Occupied (p'.scope :: outer) i) :
    Occupied (p.scope :: outer) i ∨ p.next ≤ i ∧ i < p'.next := by
  cases h with
  | bind hvalue hfits =>
    obtain ⟨x, hx, hslots⟩ := hi
    rcases List.mem_cons.1 hx with rfl | hx
    · exact .inr hslots
    · exact .inl ⟨x, (List.filter_sublist.append_right _).subset hx, hslots⟩
  | _ => exact .inl hi

end

section

variable {watched : Nat → Prop} {outer : List Scope} {p p' q r : Place}
  {o : Option (Memory × Ending)} {o' : Option (Store × Ending)}

/-- One change after another. -/
theorem Spares.trans {l l₁ l₂ : Nat → Float}
    (h : Spares watched (p.scope :: outer) p.next r.next l l₁)
    (h' : Spares watched (q.scope :: outer) q.next r.next l₁ l₂)
    (hoccupied : ∀ i, Occupied (q.scope :: outer) i →
      Occupied (p.scope :: outer) i ∨ p.next ≤ i ∧ i < r.next)
    (hle : p.next ≤ q.next) : Spares watched (p.scope :: outer) p.next r.next l l₂ := by
  intro i hi hfree hrange
  have hfree' : ¬ Occupied (q.scope :: outer) i := fun hocc => by
    rcases hoccupied i hocc with hocc | hbetween
    · exact hfree hocc
    · omega
  rw [h' i hi hfree' (by omega), h i hi hfree hrange]

/-- What was done before may have changed other slots as well. -/
theorem Mirrors.after (h : Mirrors watched outer q r σ₁.locals o o')
    (hspares : Spares watched (p.scope :: outer) p.next r.next σ.locals σ₁.locals)
    (hoccupied : ∀ i, Occupied (q.scope :: outer) i →
      Occupied (p.scope :: outer) i ∨ p.next ≤ i ∧ i < r.next)
    (hle : p.next ≤ q.next) : Mirrors watched outer p r σ.locals o o' := by
  cases h with
  | intro shows spares => exact .intro shows (hspares.trans spares hoccupied hle)

/-- Statements one after another. -/
theorem Mirrors.andThen (h : Mirrors watched outer p q σ.locals o o')
    {next : Memory → Option (Memory × Ending)} {next' : Store → Option (Store × Ending)}
    (hnext : ∀ {σ₁ : Memory} {s₁ : Store}, σ₁.Shows .done (q.scope :: outer) s₁ →
      Spares watched (p.scope :: outer) p.next q.next σ.locals σ₁.locals →
      Mirrors watched outer q r σ₁.locals (next σ₁) (next' s₁))
    (hoccupied : ∀ i, Occupied (q.scope :: outer) i →
      Occupied (p.scope :: outer) i ∨ p.next ≤ i ∧ i < r.next)
    (hle : p.next ≤ q.next) (hle' : q.next ≤ r.next) :
    Mirrors watched outer p r σ.locals (Ending.andThen o next) (Ending.andThen o' next') := by
  cases h with
  | @intro σ₁ s₁ ending shows spares =>
    have hspares : Spares watched (p.scope :: outer) p.next r.next σ.locals σ₁.locals :=
      fun i hi hfree hrange => spares i hi hfree (by omega)
    cases ending with
    | done => exact (hnext shows spares).after hspares hoccupied hle
    | left | halted | paused => exact .intro (shows.left Ending.noConfusion) hspares

theorem Mirrors.inBlock {body : Store → Option (Store × Ending)} {n n' : Nat}
    (h : Mirrors watched (p.scope :: outer) ⟨[], n⟩ r σ.locals o (body { s with scopes := [] :: s.scopes }))
    (hle : p.next ≤ n) (hle' : r.next ≤ n') :
    Mirrors watched outer p ⟨p.scope, n'⟩ σ.locals o (Meaning.inBlock body s) := by
  unfold Meaning.inBlock
  generalize body { s with scopes := [] :: s.scopes } = o' at h ⊢
  cases h with
  | intro shows spares =>
    refine .intro ⟨fun hdone => ?_, shows.outputs, shows.tape⟩ fun i hi hfree hrange => ?_
    · exact congrArg List.tail (shows.scopes hdone)
    · have hrange : i < p.next ∨ n' ≤ i := hrange
      exact spares i hi hfree (show i < n ∨ r.next ≤ i by omega)

/-- A counter is positive as long as the loop runs. -/
theorem truthy_gt_zero (h : count < 2 ^ 53) :
    truthy (BinaryFn.gt.apply (Float.ofNat count) 0.0) = decide (0 < count) := by
  cases count with
  | zero => decide +kernel
  | succ count =>
    rw [BinaryFn.apply, decide_eq_true (Binary64.zero_lt_ofNat count.succ_pos h),
      decide_eq_true count.succ_pos]
    decide +kernel

theorem runLoop_mirrors {body : Memory → Option (Memory × Ending)}
    {body' : Store → Option (Store × Ending)} (hp : Below p.next (p.scope :: outer))
    (hwatched : watched p.next) (hle : p.next + 1 ≤ r.next)
    (hbody : ∀ {σ : Memory} {s : Store}, σ.Shows .done (p.scope :: outer) s →
      Mirrors watched outer ⟨p.scope, p.next + 1⟩ ⟨p.scope, r.next⟩ σ.locals (body σ) (body' s))
    (hcount : count < 2 ^ 53) (hs : σ.Shows .done (p.scope :: outer) s)
    (hcounter : σ.locals p.next = Float.ofNat count) :
    Mirrors watched outer p ⟨p.scope, r.next⟩ σ.locals (runLoop p.next body count σ)
      (Ending.iterate body' count s) := by
  have hfree : ¬ Occupied (p.scope :: outer) p.next :=
    fun hocc => Nat.lt_irrefl _ (hp.occupied_lt hocc)
  induction count generalizing σ s with
  | zero =>
    have hdone : truthy (BinaryFn.gt.apply (σ.locals p.next) 0.0) = false := by
      rw [hcounter, truthy_gt_zero hcount]
      rfl
    rw [runLoop, hdone]
    exact .intro hs fun i _ _ _ => rfl
  | succ count ih =>
    have hmore : truthy (BinaryFn.gt.apply (σ.locals p.next) 0.0) = true := by
      rw [hcounter, truthy_gt_zero hcount]
      exact decide_eq_true count.succ_pos
    rw [runLoop, if_pos hmore, hcounter, Binary64.ofNat_sub_one hcount]
    have hsame : ∀ i, i ≠ p.next →
        (σ.put .locals p.next (Float.ofNat count)).locals i = σ.locals i :=
      fun i hi => Function.update_of_ne hi ..
    have hs₁ : (σ.put .locals p.next (Float.ofNat count)).Shows .done (p.scope :: outer) s :=
      ⟨fun hdone => (hs.scopes hdone).trans (view_congr hp fun i hocc => hsame i fun heq =>
        hfree (heq ▸ hocc)).symm, hs.outputs, hs.tape⟩
    have hput : Spares watched (p.scope :: outer) p.next r.next σ.locals
        (σ.put .locals p.next (Float.ofNat count)).locals :=
      fun i _ _ hrange => hsame i (by omega)
    refine Mirrors.after (q := p) ?_ hput (fun i hocc => .inl hocc) (Nat.le_refl _)
    have hcounter₁ : (σ.put .locals p.next (Float.ofNat count)).locals p.next = Float.ofNat count :=
      Function.update_self ..
    have hfirst := hbody hs₁
    rw [Ending.iterate]
    generalize σ.put .locals p.next (Float.ofNat count) = σ₁ at hfirst hcounter₁ ⊢
    generalize body σ₁ = o, body' s = o' at hfirst ⊢
    cases hfirst with
    | @intro σ₂ s₂ ending shows spares =>
      have hspares : Spares watched (p.scope :: outer) p.next r.next σ₁.locals σ₂.locals :=
        fun i hi hfree' hrange => spares i hi hfree' (show i < p.next + 1 ∨ r.next ≤ i by omega)
      have hcounter₂ : σ₂.locals p.next = Float.ofNat count :=
        (spares _ hwatched hfree (.inl (Nat.lt_succ_self _))).trans hcounter₁
      cases ending with
      | done =>
        exact (ih (by omega) shows hcounter₂).after hspares (fun i hocc => .inl hocc) (Nat.le_refl _)
      | left | halted | paused => exact .intro (shows.left Ending.noConfusion) hspares

end

section

variable {names : Names} {T : Tables} {W : World} {watched : Nat → Prop} {first : Nat}
  {enter : Nat → Memory → Option (Memory × Ending)}
  {enter' : String → Store → Option (Store × Ending)}

theorem EntersAlike.mirrors {flow : Nat} {name : String} {outer : List Scope} {p : Place}
    (h : EntersAlike watched enter enter' flow name) (hp : Homed first p.next (p.scope :: outer))
    (hwatched : ∀ i, first ≤ i → i < p.next → watched i) (hs : σ.Shows .done (p.scope :: outer) s)
    (f : Ending → Ending) :
    Mirrors watched outer p p σ.locals ((enter flow σ).map fun x => (x.1, f x.2))
      ((enter' name s).map fun x => (x.1, f x.2)) := by
  obtain ⟨σ', ending, henter, henter', hkept⟩ := h σ s hs.outputs hs.tape
  rw [henter, henter']
  refine .intro ⟨fun _ => ?_, rfl, rfl⟩ fun i hi _ _ => hkept i hi
  rw [view_congr hp.below fun i hocc => hkept i (hwatched i (hp.first_le_of_occupied hocc)
    (hp.below.occupied_lt hocc))]
  exact hs.scopes rfl

mutual

theorem StmtElaborates.run {outer : List Scope} {p p' : Place} {stmt : Behavior.Stmt} {t : Stmt}
    {σ : Memory}
    (h : StmtElaborates names T outer p stmt t p') (hW : Fits names T W)
    (hp : Homed first p.next (p.scope :: outer))
    (hwatched : ∀ i, first ≤ i → i < p'.next → watched i)
    (henter : ∀ x ∈ t.passages, ∀ name, names.flows.lookup name = some x.1 →
      EntersAlike watched enter enter' x.1 name)
    {s : Store} (hs : σ.Shows .done (p.scope :: outer) s) :
    Mirrors watched outer p p' σ.locals (t.exec W.inputs enter σ) (W.run enter' stmt s) := by
  obtain ⟨scopes, outputs, tape⟩ := s
  obtain ⟨hscopes, rfl, rfl⟩ := hs
  have hscopes : scopes = view σ.locals (p.scope :: outer) := hscopes rfl
  subst hscopes
  cases h with
  | @bind _ _ _ name _ v hvalue hfits =>
    rw [World.run]
    dsimp only
    rw [hvalue.eval hW σ.locals σ.tape]
    have hlocals {i : Nat} (hi : i < p.next ∨ p.next + v.type.width ≤ i) :
        (σ.store W.inputs .locals p.next v).locals i = σ.locals i :=
      σ.putAll_locals (by rwa [Value.length_numbers])
    refine .intro ⟨fun _ => ?_, (σ.outputs_putAll ..).symm, rfl⟩ fun i _ _ hi => hlocals hi
    rw [← define_view hp.below fun i hi => hlocals (.inl hi), Memory.read_store]
  | @assignLocal _ _ _ target _ v slot hvalue hfound =>
    rw [World.run]
    dsimp only
    rw [hvalue.eval hW σ.locals σ.tape, Option.bind_eq_bind, Option.bind_some, find_view, hfound]
    have hlocals {i : Nat} (hi : ¬ (slot ≤ i ∧ i < slot + v.type.width)) :
        (σ.store W.inputs .locals slot v).locals i = σ.locals i :=
      σ.putAll_locals (by rw [Value.length_numbers]; omega)
    refine .intro ⟨fun _ => ?_, (σ.outputs_putAll ..).symm, rfl⟩ fun i _ hfree _ => hlocals ?_
    · rw [← assign_view hp.toLaid hfound fun i hi => hlocals hi]
      exact congrArg (Meaning.assign _ · _) (Memory.read_store ..).symm
    · exact fun hi => hfree ⟨_, mem_flatten_of_find hfound, hi⟩
  | @assignOutput _ _ _ target _ _ v entry hvalue hfound hresolved houtput =>
    have hslot : W.output? target = some entry.slot.toNat := by
      rw [World.output?, hW.resolve, hresolved, hW.schema]
      dsimp only
      rw [houtput]
      rfl
    rw [World.run]
    dsimp only
    rw [hvalue.eval hW σ.locals σ.tape, Option.bind_eq_bind, Option.bind_some, find_view, hfound]
    dsimp only [Option.map_none]
    rw [hslot]
    exact .intro (σ.shows_outputs ..) fun i _ _ _ => congrFun (σ.store_outputs ..).1 i
  | @intent _ _ _ channel _ _ _ v u c hvalue hurgency hresolved hchannel =>
    have hslots : W.channel? channel = some (c.valueSlot.toNat, c.urgencySlot.toNat) := by
      rw [World.channel?, hW.resolve, hresolved, hW.schema]
      dsimp only
      rw [hchannel]
      rfl
    rw [World.run]
    dsimp only
    rw [hvalue.eval hW σ.locals σ.tape, Option.bind_eq_bind, Option.bind_some,
      hurgency.eval hW σ.locals, Option.bind_eq_bind, Option.bind_some]
    rw [hslots]
    obtain ⟨hlocals, houtputs⟩ := σ.store_outputs W.inputs c.valueSlot.toNat v
    have hshows := (σ.store W.inputs .outputs c.valueSlot.toNat v).shows_outputs W.inputs
      c.urgencySlot.toNat (.number u) (p.scope :: outer)
    rw [hlocals, houtputs] at hshows
    exact .intro hshows fun i _ _ _ => congrFun ((Memory.store_outputs ..).1.trans hlocals) i
  | @branch _ _ q r _ _ _ _ c _ _ hcondition hthen helse =>
    have hle := hthen.next_le
    have hle' : q.next ≤ r.next := helse.next_le
    rw [World.run]
    dsimp only
    rw [hcondition.eval hW σ.locals σ.tape, Option.bind_eq_bind, Option.bind_some, Stmt.exec]
    dsimp only [Value.eval, Datum.scalar?, Option.bind_eq_bind, Option.bind_some]
    have hshown : Memory.Shows { σ with tape := (c.eval W.inputs σ.locals σ.tape).2 } .done
        ([] :: p.scope :: outer) ⟨[] :: view σ.locals (p.scope :: outer), σ.outputs,
          (c.eval W.inputs σ.locals σ.tape).2⟩ := ⟨fun _ => rfl, rfl, rfl⟩
    split
    · exact (hthen.run hW hp.block (fun i hi hlt => hwatched i hi (Nat.lt_of_lt_of_le hlt hle'))
        (fun x hx => henter x (List.mem_append_left _ hx)) hshown).inBlock
        (Nat.le_refl _) hle'
    · exact (helse.run hW (hp.mono hle).block hwatched
        (fun x hx => henter x (List.mem_append_right _ hx)) hshown).inBlock
        hle (Nat.le_refl _)
  | @loop _ _ q _ count _ _ hcount hfits hbody =>
    have hle : p.next + 1 ≤ q.next := hbody.next_le
    have hfree {i : Nat} (hocc : Occupied (p.scope :: outer) i) : i ≠ p.next :=
      Nat.ne_of_lt (hp.below.occupied_lt hocc)
    have hrun {σ : Memory} {s : Store} (hs : σ.Shows .done (p.scope :: outer) s) :=
      (hbody.run hW (hp.mono (Nat.le_succ _)).block hwatched henter
        (s := { s with scopes := [] :: s.scopes })
        ⟨fun _ => congrArg ([] :: ·) (hs.scopes rfl), hs.outputs, hs.tape⟩).inBlock
        (p := ⟨p.scope, p.next + 1⟩) (Nat.le_refl _) (Nat.le_refl _)
    rw [Stmt.exec, World.run]
    split
    · next hzero =>
      subst hzero
      exact .intro ⟨fun _ => rfl, rfl, rfl⟩ fun i _ _ _ => rfl
    · have hput {i : Nat} (hi : i ≠ p.next) :
          (σ.put .locals p.next (Float.ofNat count)).locals i = σ.locals i :=
        Function.update_of_ne hi ..
      have hlt : count < 2 ^ 53 := Nat.lt_of_le_of_lt hcount (by decide)
      refine (runLoop_mirrors hp.below (hwatched _ hp.first_le hle) hle hrun hlt
        ⟨fun _ => ?_, rfl, rfl⟩ (Function.update_self ..)).after (fun i _ _ hrange => hput ?_)
        (fun i hocc => .inl hocc) (Nat.le_refl _)
      · exact (view_congr hp.below fun i hocc => hput (hfree hocc)).symm
      · have hrange : i < p.next ∨ q.next ≤ i := hrange
        omega
  | call hflow =>
    have hentered := (henter _ List.mem_cons_self _ hflow).mirrors hp hwatched
      ⟨fun _ => rfl, rfl, rfl⟩ Ending.ofCall
      (s := ⟨view σ.locals (p.scope :: outer), σ.outputs, σ.tape⟩)
    rwa [Option.map_eq_bind (x := enter' ..)] at hentered
  | goto hflow =>
    have hentered := (henter _ List.mem_cons_self _ hflow).mirrors hp hwatched
      ⟨fun _ => rfl, rfl, rfl⟩ Ending.ofGoto
      (s := ⟨view σ.locals (p.scope :: outer), σ.outputs, σ.tape⟩)
    rwa [Option.map_eq_bind (x := enter' ..)] at hentered
  | wait hseconds =>
    rw [World.run]
    dsimp only
    rw [hseconds.eval hW σ.locals σ.tape]
    exact .intro ⟨fun _ => rfl, rfl, rfl⟩ fun i _ _ _ => rfl
  | continuation htimeout hp hflow | halt =>
    exact .intro ⟨fun _ => rfl, rfl, rfl⟩ fun i _ _ _ => rfl

/-- Statements do what checked statements do. -/
theorem StmtsElaborate.run {outer : List Scope} {p p' : Place} {stmts : List Behavior.Stmt}
    {ts : List Stmt} {σ : Memory} (h : StmtsElaborate names T outer p stmts ts p')
    (hW : Fits names T W) (hp : Homed first p.next (p.scope :: outer))
    (hwatched : ∀ i, first ≤ i → i < p'.next → watched i)
    (henter : ∀ x ∈ Stmt.allPassages ts, ∀ name, names.flows.lookup name = some x.1 →
      EntersAlike watched enter enter' x.1 name)
    {s : Store} (hs : σ.Shows .done (p.scope :: outer) s) :
    Mirrors watched outer p p' σ.locals (Stmt.execAll W.inputs enter ts σ)
      (W.runAll enter' stmts s) := by
  cases h with
  | nil => exact .intro hs fun _ _ _ _ => rfl
  | cons hhead htail =>
    have hlt := htail.next_le
    have hfirst := hhead.run hW hp (fun i hi hlt' => hwatched i hi (by omega))
      (fun x hx => henter x (List.mem_append_left _ hx)) hs
    refine hfirst.andThen (fun hs₁ _ => ?_) (fun i hocc => ?_) hhead.next_le hlt
    · exact htail.run hW (hhead.keeps_homed hp) hwatched
        (fun x hx => henter x (List.mem_append_right _ hx)) hs₁
    · exact (hhead.occupied hocc).imp_right fun hi => ⟨hi.1, by omega⟩

end

end

end

/-! ## Flows -/

section

variable {names : Names} {T : Tables} {W : World} {ds : List Behavior.Flow} {ts : List Flow}
  {name : String} {flow : Nat}
variable {first : Nat → Nat} {n m : Nat}

/-- The slots of a flow come after those of the flows before it. -/
structure Ranges (names : Names) (T : Tables) (ds : List Behavior.Flow) (ts : List Flow)
    (first : Nat → Nat) : Prop where
  mono : Monotone first
  flow : ∀ {k : Nat} {d : Behavior.Flow}, ds[k]? = some d → ∃ t scope, ts[k]? = some t ∧
    StmtsElaborate names T [] ⟨[], first k⟩ d.body t.body ⟨scope, first (k + 1)⟩

theorem FlowsElaborate.exists_ranges (h : FlowsElaborate names T n ds ts m) :
    ∃ first, first 0 = n ∧ (∀ k, first k ≤ m) ∧ Ranges names T ds ts first := by
  induction h with
  | @nil n => exact ⟨fun _ => n, rfl, fun _ => Nat.le_refl n, monotone_const, fun hd => by cases hd⟩
  | @cons n m flow rest body flows q hhead htail ih =>
    obtain ⟨first, hstart, hle, hranges⟩ := ih
    refine ⟨fun k => Nat.casesOn k n first, rfl, fun k => ?_, monotone_nat_of_le_succ fun k => ?_, ?_⟩
    · cases k with
      | zero => exact Nat.le_trans hhead.next_le htail.next_le
      | succ k => exact hle k
    · cases k with
      | zero => exact Nat.le_trans hhead.next_le (Nat.le_of_eq hstart.symm)
      | succ k => exact hranges.mono (Nat.le_succ k)
    · intro k d hd
      cases k with
      | zero =>
        cases hd
        refine ⟨_, q.scope, rfl, ?_⟩
        show StmtsElaborate names T [] ⟨[], n⟩ flow.body body ⟨q.scope, first 0⟩
        rw [hstart]
        exact hhead
      | succ k => exact hranges.flow hd

theorem FlowsElaborate.length_eq (h : FlowsElaborate names T n ds ts m) :
    ts.length = ds.length := by
  induction h with
  | nil => rfl
  | cons _ _ ih => exact congrArg (· + 1) ih

/-- The number of a name is the place of the first flow that has it. -/
theorem find?_of_lookup {flows : List Behavior.Flow} {k start : Nat}
    (h : ((flows.map (·.name)).zipIdx start).lookup name = some k) :
    ∃ j d, k = start + j ∧ flows[j]? = some d ∧ flows.find? (·.name == name) = some d := by
  induction flows generalizing start with
  | nil => cases h
  | cons flow rest ih =>
    rw [List.map_cons, List.zipIdx_cons, List.lookup_cons] at h
    rw [List.find?_cons, BEq.comm]
    cases hname : name == flow.name with
    | true =>
      rw [hname] at h
      cases h
      exact ⟨0, flow, rfl, rfl, rfl⟩
    | false =>
      rw [hname] at h
      obtain ⟨j, d, rfl, hd, hfind⟩ := ih h
      exact ⟨j + 1, d, by omega, hd, hfind⟩

theorem EntersAlike.mono {watched watched' : Nat → Prop}
    {enter : Nat → Memory → Option (Memory × Ending)}
    {enter' : String → Store → Option (Store × Ending)}
    (h : EntersAlike watched enter enter' flow name) (hle : ∀ i, watched' i → watched i) :
    EntersAlike watched' enter enter' flow name := by
  intro σ s houtputs htape
  obtain ⟨σ', ending, henter, henter', hkept⟩ := h σ s houtputs htape
  exact ⟨σ', ending, henter, henter', fun i hi => hkept i (hle i hi)⟩

/-- The slots of flows whose rank is at least the given one. -/
def RankedFrom (graph : FlowGraph) (first : Nat → Nat) (rank i : Nat) : Prop :=
  ∃ j, rank ≤ graph.rank j ∧ first j ≤ i ∧ i < first (j + 1)

/-- A flow that changes slots of its own leaves those of flows of higher rank alone. -/
theorem Ranges.spared {graph : FlowGraph} (h : Ranges names T ds ts first) {l l' : Nat → Float}
    (hspares : Spares (RankedFrom graph first (graph.rank flow)) [[]] (first flow)
      (first (flow + 1)) l l') (hi : RankedFrom graph first (graph.rank flow + 1) i) :
    l' i = l i := by
  obtain ⟨j, hj, hle, hlt⟩ := hi
  refine hspares i ⟨j, by omega, hle, hlt⟩ (fun hocc => ?_) ?_
  · obtain ⟨x, hx, -⟩ := hocc
    cases hx
  · -- another flow's slots are all before or all after those of this one
    rcases Nat.lt_trichotomy j flow with hlt' | rfl | hlt'
    · exact .inl (Nat.lt_of_lt_of_le hlt (h.mono hlt'))
    · exact absurd hj (Nat.not_succ_le_self _)
    · exact .inr (Nat.le_trans (h.mono hlt') hle)

variable {registry : Registry} {d : Document} {p : Program} {graph : FlowGraph}

theorem Checked.size_graph (h : Checked registry d p names graph) :
    graph.size = d.flows.length :=
  h.edges.length_eq.symm.trans h.flows.length_eq

theorem Checked.rank_lt (h : Checked registry d p names graph) {t : Flow}
    (ht : p.flows[flow]? = some t) {x : Nat × Passage} (hx : x ∈ Stmt.allPassages t.body)
    (hname : names.flows.lookup name = some x.1) :
    graph.rank x.1 < graph.rank flow := by
  have hlt : x.1 < graph.size := by
    rw [h.numbers] at hname
    obtain ⟨j, _, hxj, hj, -⟩ := find?_of_lookup hname
    rw [h.size_graph, hxj, Nat.zero_add]
    exact (List.getElem?_eq_some_iff.1 hj).1
  have hstep : x.1 ∈ graph.successors flow := List.mem_map_of_mem (h.edges.mem_edges ht hx)
  exact FlowGraph.rank_lt_rank h.recursive hstep hlt

/-- Flows do what checked flows do. They change slots of their own and of flows that they lead to,
all of which have a lower rank. -/
theorem Checked.runFlow (h : Checked registry d p names graph) (hW : Fits names p.tables W)
    (hfirst : Ranges names p.tables d.flows p.flows first) (depth : Nat)
    (hname : names.flows.lookup name = some flow) (hrank : graph.rank flow < depth) :
    EntersAlike (RankedFrom graph first (graph.rank flow + 1)) (execFlow W.inputs p.flows depth)
      (W.runFlow d.flows depth) flow name := by
  induction depth generalizing flow name with
  | zero => exact absurd hrank (Nat.not_lt_zero _)
  | succ depth ih =>
    intro σ s houtputs htape
    rw [h.numbers] at hname
    obtain ⟨k, f, hk, hf, hfind⟩ := find?_of_lookup hname
    rw [Nat.zero_add] at hk
    subst hk
    obtain ⟨t, scope, ht, hbody⟩ := hfirst.flow hf
    have hran : Mirrors (RankedFrom graph first (graph.rank flow)) [] ⟨[], first flow⟩
        ⟨scope, first (flow + 1)⟩ σ.locals
        (Stmt.execAll W.inputs (execFlow W.inputs p.flows depth) t.body σ)
        (W.runAll (W.runFlow d.flows depth) f.body { s with scopes := [[]] }) := by
      refine hbody.run hW ⟨.start _, Nat.le_refl _, by simp⟩
        (fun i hi hlt => ⟨flow, Nat.le_refl _, hi, hlt⟩) (fun x hx name' hname' => ?_)
        ⟨fun _ => rfl, houtputs, htape⟩
      have hlower := h.rank_lt ht hx hname'
      refine (ih hname' (by omega)).mono ?_
      rintro i ⟨j, hj, hi⟩
      exact ⟨j, by omega, hi⟩
    rw [execFlow, World.runFlow, ht, hfind]
    dsimp only [Option.bind_eq_bind, Option.bind_some]
    generalize Stmt.execAll W.inputs (execFlow W.inputs p.flows depth) t.body σ = o,
      W.runAll (W.runFlow d.flows depth) f.body { s with scopes := [[]] } = o' at hran ⊢
    cases hran with
    | @intro σ' s' ending shows spares =>
      refine ⟨σ', ending, rfl, ?_, ?_⟩
      · rw [Option.bind_some, ← shows.outputs, ← shows.tape]
        rfl
      · exact fun i hi => hfirst.spared spares hi

/-- The first flow of a document does what the first flow of its checked form does. -/
theorem Checked.runEntry (h : Checked registry d p names graph) (hW : Fits names p.tables W)
    (hempty : d.flows ≠ []) (outputs : Array Float) (random : Random) :
    ∃ f σ ending, d.entry? = some f ∧
      execFlow W.inputs p.flows d.flows.length 0 (.start outputs random) = some (σ, ending) ∧
      W.runFlow d.flows d.flows.length f.name { outputs, tape := .start random } =
        some ({ outputs := σ.outputs, tape := σ.tape }, ending) := by
  obtain ⟨f, rest, hflows⟩ := List.exists_cons_of_ne_nil hempty
  obtain ⟨first, -, -, hfirst⟩ := h.flows.exists_ranges
  have hname : names.flows.lookup f.name = some 0 := by
    rw [h.numbers, hflows, List.map_cons, List.zipIdx_cons, List.lookup_cons, beq_self_eq_true]
  have hlt : 0 < graph.size := by
    rw [h.size_graph, hflows]
    exact Nat.succ_pos _
  have hrank : graph.rank 0 < d.flows.length :=
    h.size_graph ▸ FlowGraph.rank_lt_size hlt
  obtain ⟨σ, ending, hexec, hrun, -⟩ := h.runFlow hW hfirst _ hname hrank (.start outputs random)
    ⟨[], outputs, .start random⟩ rfl rfl
  exact ⟨f, σ, ending, by rw [Document.entry?, hflows]; rfl, hexec, hrun⟩

/-- A document does what its checked form does. It has no result if that comes to a continuation
point. -/
theorem Checked.trace (h : Checked registry d p names graph) (hW : Fits names p.tables W)
    (hempty : d.flows ≠ []) (outputs : Array Float) (random : Random) :
    ∃ σ ending,
      execFlow W.inputs p.flows d.flows.length 0 (.start outputs random) = some (σ, ending) ∧
      W.traceDocument d outputs random =
        if ending = .paused then none else some (σ.outputs, σ.tape) := by
  obtain ⟨f, σ, ending, hentry, hexec, hrun⟩ := h.runEntry hW hempty outputs random
  refine ⟨σ, ending, hexec, ?_⟩
  rw [World.traceDocument, hentry]
  dsimp only [Option.bind_eq_bind, Option.bind_some]
  rw [hrun]
  rfl

/-- A document without continuation points does what its checked form does. -/
theorem Checked.run (h : Checked registry d p names graph) (hW : Fits names p.tables W)
    (hpoint : d.hasPoint = false) (hempty : d.flows ≠ []) (outputs : Array Float) (random : Random) :
    ∃ σ ending, p.Leaves W.inputs outputs random d.flows.length σ ending ∧
      W.runDocument d outputs random = some (σ.outputs, σ.random) := by
  obtain ⟨f, σ, ending, hentry, hexec, hrun⟩ := h.runEntry hW hempty outputs random
  have hending : ending ≠ .paused := W.neverPauses_runFlow hpoint _ _ _ _ _ hrun
  refine ⟨σ, ending, ⟨hexec, hending⟩, ?_⟩
  rw [World.runDocument, World.traceDocument, hentry]
  dsimp only [Option.bind_eq_bind, Option.bind_some]
  rw [hrun]
  dsimp only [Option.bind_some]
  rw [if_neg hending]
  rfl

end

end Typed

end Behavior
