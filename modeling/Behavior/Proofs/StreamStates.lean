import Behavior.Proofs.StreamPauses

/-!
The states that a stream can come to.

What a stream records of its continuation point, of the extension that it holds and of the models
that it has run fits together between any two calls. Within an advance the phase lags behind, so the
invariant is split: `Tracked` and `Chained` hold at every turn of an advance, and the phase is added
where the advance ends.
-/

namespace Behavior

/-- The model declares the other as its parent. -/
def Model.Extends (m parent : Model) : Prop :=
  m.extends?.map (·.parent) = some parent.id

namespace Stream

/-! ## The extensions of a history -/

/-- The extension that a call attaches, if it is accepted. -/
def accepted? (s : Stream) : Event → Option Model
  | .advance _ _ _ => none
  | .attach m =>
    match s.attach m with
    | .ok _ => some m
    | .error _ => none

/-- The extensions that some calls attach, in their order. -/
def accepted (s : Stream) : List Event → List Model
  | [] => []
  | e :: rest => (s.accepted? e).toList ++ (s.step e).accepted rest

/-- What is accepted has been offered. -/
theorem attach_mem_of_accepted {s : Stream} {events : List Event} {m : Model}
    (h : m ∈ s.accepted events) : .attach m ∈ events := by
  induction events generalizing s with
  | nil => cases h
  | cons e rest ih =>
    rcases List.mem_append.1 h with h | h
    · have haccepted := Option.mem_toList.1 h
      cases e with
      | advance dt inputs outputs => cases haccepted
      | attach n =>
        unfold accepted? at haccepted
        dsimp only at haccepted
        split at haccepted
        · cases haccepted
          exact List.mem_cons_self
        · cases haccepted
    · exact List.mem_cons_of_mem _ (ih h)

/-- What is known of a stream of a model that has accepted some extensions. -/
structure Consistent (root : Model) (settings : StreamSettings) (extensions : List Model)
    (s : Stream) : Prop where
  hasIncoming : s.hasIncoming = true ↔ s.incoming?.isSome
  incoming : s.incoming?.isSome →
    s.awaiting?.isSome ∧ ∃ p, s.pending? = some p ∧ p.resolved = true
  pending : (∃ p, s.pending? = some p ∧ p.resolved = false) ↔
    s.awaiting?.isSome ∧ s.incoming? = none
  pending_eq : ∀ p, s.pending? = some p → p.resolved = false →
    ∃ a point, s.awaiting? = some a ∧ s.stage.model.points[a.point]? = some point ∧
      p.parent = s.stage.model.id ∧ p.pointHash = point.nameHash ∧
      p.deadline = a.deadline.clockNanos
  phase : s.phase = .awaitingExtension ↔ s.awaiting?.isSome
  exclusive : ¬ (s.waitUntil?.isSome ∧ s.awaiting?.isSome)
  /-- A stream that is done stays as it is. -/
  terminal : s.phase = .terminal → s.awaiting? = none ∧ s.incoming? = none ∧
    (∀ m, ∃ r, s.attach m = .error r) ∧ ∀ e, s.step e = s
  lineage : s.lineage.reverse = (root :: extensions).map (·.id)
  nodup : s.lineage.Nodup
  length_le : s.lineage.length ≤ settings.maxChain + 1
  parents : (root :: extensions).IsChain fun parent m => m.Extends parent
  current : s.incoming? = none → (root :: extensions).getLast? = some s.stage.model
  /-- The extension that is about to take over comes last. -/
  next : ∀ stage, s.incoming? = some stage →
    [s.stage.model, stage.model] <:+ root :: extensions

/-! ## Records of the point -/

/-- What a stream records of its continuation point, at every turn of an advance. -/
structure Tracked (s : Stream) : Prop extends Tidy s where
  flag : s.hasIncoming = s.incoming?.isSome
  resolved : s.incoming?.isSome → ∃ p, s.pending? = some p ∧ p.resolved = true
  awaited : ∀ a, s.awaiting? = some a → s.waitUntil? = none ∧
    (s.incoming? = none → ∃ point, s.stage.model.points[a.point]? = some point ∧
      s.pending? = some ⟨s.stage.model.id, point.nameHash, a.deadline.clockNanos, false⟩)

namespace Tracked

variable {s t : Stream}

theorem new (m : Model) (settings : StreamSettings) : (new m settings).Tracked :=
  ⟨.new m settings, rfl, nofun, nofun⟩

theorem later (hs : s.Tracked) (dt : Duration) : (s.later dt).Tracked :=
  ⟨hs.toTidy.later dt, hs.flag, hs.resolved, hs.awaited⟩

/-- A stream that runs has passed its wait and its point. -/
theorem ready (hs : s.Tracked) (h : s.ready = .ok t) :
    t.Tracked ∧ t.awaiting? = none ∧ t.incoming? = none := by
  obtain ⟨hawaiting, -, hincoming, htidy⟩ := hs.toTidy.ready h
  refine ⟨⟨htidy, ?_, by rw [hincoming]; nofun, by rw [hawaiting]; nofun⟩, hawaiting, hincoming⟩
  rcases ready_ok h with ⟨-, rfl⟩ | ⟨_, _, -, -, rfl⟩ | ⟨_, -, -, -, rfl⟩
  · exact hs.flag
  · rfl
  · exact hs.flag

theorem withStage (hs : s.Tracked) (hawaiting : s.awaiting? = none) (stage : Stage) :
    Tracked { s with stage } :=
  ⟨hs.toTidy.withStage stage, hs.flag, hs.resolved, by rw [hawaiting]; nofun⟩

theorem pausedAt (hs : s.Tracked) (hwait : s.waitUntil? = none) (hincoming : s.incoming? = none)
    {stage : Stage} {point : Nat} {p : ContinuationPoint}
    (hp : stage.model.points[point]? = some p) : (s.pausedAt stage point p).Tracked := by
  refine ⟨.pausedAt hincoming stage point p, hs.flag, ?_, ?_⟩
  · show s.incoming?.isSome → _
    rw [hincoming]
    nofun
  · rintro _ ⟨⟩
    exact ⟨hwait, fun _ => ⟨p, hp, rfl⟩⟩

/-- An extension is accepted for the point of the current stage. -/
theorem attach (hs : s.Tracked) {m : Model} (h : s.attach m = .ok t) :
    t.Tracked ∧ s.incoming? = none ∧ m.Extends s.stage.model := by
  obtain ⟨htidy, hawaiting, hincoming⟩ := hs.toTidy.attach h
  obtain ⟨a, p, strings, bridge, hextends, haccept, -, rfl⟩ := attach_ok h
  obtain ⟨hpending, -, hparent, -⟩ := accept_ok haccept
  obtain ⟨w, hw⟩ := Option.isSome_iff_exists.1 hawaiting
  obtain ⟨hwait, hpoint⟩ := hs.awaited w hw
  obtain ⟨point, -, hexpected⟩ := hpoint hincoming
  cases hpending.symm.trans hexpected
  refine ⟨⟨htidy, rfl, fun _ => ⟨_, rfl, rfl⟩, fun a ha => ⟨(hs.awaited a ha).1, nofun⟩⟩,
    hincoming, ?_⟩
  rw [Model.Extends, hextends, Option.map_some, hparent]

/-- What is still open is the point that the stream waits at, and is recorded as such. -/
theorem exists_awaited (hs : s.Tracked) {p : Pending} (hp : s.pending? = some p)
    (hresolved : p.resolved = false) :
    ∃ a point, s.awaiting? = some a ∧ s.stage.model.points[a.point]? = some point ∧
      p = ⟨s.stage.model.id, point.nameHash, a.deadline.clockNanos, false⟩ := by
  obtain ⟨hawaiting, hincoming⟩ := hs.pending p hp hresolved
  obtain ⟨a, ha⟩ := Option.isSome_iff_exists.1 hawaiting
  obtain ⟨point, hpoint, hexpected⟩ := (hs.awaited a ha).2 hincoming
  exact ⟨a, point, ha, hpoint, Option.some.inj (hp.symm.trans hexpected)⟩

/-- Nothing is accepted at a point that is passed. -/
theorem attach_error (hs : s.Tracked) (hawaiting : s.awaiting? = none) (m : Model) :
    ∃ r, s.attach m = .error r := by
  cases h : s.attach m with
  | error r => exact ⟨r, rfl⟩
  | ok t =>
    have := (hs.toTidy.attach h).2.1
    rw [hawaiting] at this
    cases this

end Tracked

/-! ## Records of the models -/

/-- What a stream records of the models that it has run or is to run, the latest first. -/
structure Chained (chain : List Model) (s : Stream) : Prop where
  lineage : s.lineage = chain.map (·.id)
  nodup : s.lineage.Nodup
  length_le : s.lineage.length ≤ s.settings.maxChain + 1
  extends_ : chain.IsChain Model.Extends
  current : (s.incoming?.map (·.model)).toList ++ [s.stage.model] <+: chain

namespace Chained

variable {s t : Stream} {chain : List Model}

theorem new (m : Model) (settings : StreamSettings) : (new m settings).Chained [m] :=
  ⟨rfl, List.nodup_singleton _, Nat.le_add_left _ _, .singleton _, List.prefix_rfl⟩

/-- Only the models matter. -/
theorem of_eq (hs : s.Chained chain) (hlineage : t.lineage = s.lineage)
    (hsettings : t.settings = s.settings) (hincoming : t.incoming? = s.incoming?)
    (hmodel : t.stage.model = s.stage.model) : t.Chained chain :=
  ⟨hlineage.trans hs.lineage, hlineage ▸ hs.nodup, by rw [hlineage, hsettings]; exact hs.length_le,
    hs.extends_, by rw [hincoming, hmodel]; exact hs.current⟩

theorem ready (hs : s.Chained chain) (h : s.ready = .ok t) : t.Chained chain := by
  rcases ready_ok h with ⟨-, rfl⟩ | ⟨_, stage, -, hincoming, rfl⟩ | ⟨_, -, -, -, rfl⟩
  · exact hs.of_eq rfl rfl rfl rfl
  · have hcurrent := hs.current
    rw [hincoming] at hcurrent
    exact ⟨hs.lineage, hs.nodup, hs.length_le, hs.extends_, (List.prefix_append _ _).trans hcurrent⟩
  · exact hs.of_eq rfl rfl rfl rfl

theorem attach (hs : s.Chained chain) {m : Model} (h : s.attach m = .ok t)
    (hincoming : s.incoming? = none) (hm : m.Extends s.stage.model) : t.Chained (m :: chain) := by
  obtain ⟨a, p, strings, bridge, -, haccept, -, rfl⟩ := attach_ok h
  obtain ⟨-, -, -, -, -, hnew, hlength⟩ := accept_ok haccept
  have hcurrent := hs.current
  rw [hincoming] at hcurrent
  obtain ⟨rest, rfl⟩ := hcurrent
  exact ⟨congrArg (m.id :: ·) hs.lineage, List.nodup_cons.2 ⟨hnew, hs.nodup⟩,
    Nat.succ_le_succ hlength, .cons_cons hm hs.extends_, rest, rfl⟩

end Chained

/-! ## Calls -/

/-- A stream between two calls. -/
structure Kept (settings : StreamSettings) (chain : List Model) (s : Stream) : Prop where
  settings_eq : s.settings = settings
  tracked : s.Tracked
  chained : s.Chained chain
  phase : s.phase = .awaitingExtension ↔ s.awaiting?.isSome

variable {settings : StreamSettings} {chain : List Model}

/-- Running on keeps the records, and ends at a continuation point just if it says so. -/
theorem Tracked.proceed {s : Stream} (hs : s.Tracked) (hchain : s.Chained chain) (fuel : Nat)
    (inputs outputs : Array Float) :
    let a := s.proceed fuel inputs outputs
    a.stream.settings = s.settings ∧ a.stream.Tracked ∧ a.stream.Chained chain ∧
      (a.result = .ok .awaitingExtension ↔ a.stream.awaiting?.isSome) := by
  let P (t : Stream) : Prop := t.settings = s.settings ∧ t.Tracked ∧ t.Chained chain
  refine proceed_ends (P := P)
    (R := fun t => P t ∧ t.awaiting? = none ∧ t.waitUntil? = none ∧ t.incoming? = none)
    (E := fun result t => t.settings = s.settings ∧ t.Tracked ∧ t.Chained chain ∧
      (result = .ok .awaitingExtension ↔ t.awaiting?.isSome)) ?_ ?_ ?_ ?_ ?_ ⟨rfl, hs, hchain⟩
  · rintro t phase ⟨hsettings, ht, hc⟩ hready
    refine ⟨hsettings, ht, hc, ?_⟩
    rw [ready_eq] at hready
    cases ha : t.awaiting? with
    | none =>
      simp only [ha] at hready
      split at hready
      · cases hready
        exact ⟨nofun, nofun⟩
      · cases hready
    | some a =>
      -- A stream that waits at a point has no wait left.
      simp only [ha, (ht.awaited a ha).1, Option.any_none, Bool.false_eq_true, if_false] at hready
      split at hready
      · cases hready
      · cases hready
        exact ⟨fun _ => rfl, fun _ => rfl⟩
  · rintro t u ⟨hsettings, ht, hc⟩ hready
    obtain ⟨hu, hawaiting, hincoming⟩ := ht.ready hready
    exact ⟨⟨(Same.of_ready hready).settings.trans hsettings, hu, hc.ready hready⟩, hawaiting,
      (ht.toTidy.ready hready).2.1, hincoming⟩
  · rintro t stage ⟨⟨hsettings, ht, hc⟩, hawaiting, -, -⟩ hmodel result hresult
    refine ⟨hsettings, ht.withStage hawaiting stage, hc.of_eq rfl rfl rfl hmodel, ?_⟩
    show _ ↔ t.awaiting?.isSome
    rw [hawaiting]
    rcases hresult with rfl | ⟨f, rfl⟩ <;> exact ⟨nofun, nofun⟩
  · rintro t stage stop ⟨⟨hsettings, ht, hc⟩, hawaiting, -, -⟩ hmodel
    exact ⟨hsettings, ⟨⟨ht.pending, ht.incoming⟩, ht.flag, ht.resolved, by rw [hawaiting]; nofun⟩,
      hc.of_eq rfl rfl rfl hmodel⟩
  · rintro t stage point p ⟨⟨hsettings, ht, hc⟩, -, hwait, hincoming⟩ hmodel hp
    exact ⟨hsettings, ht.pausedAt hwait hincoming hp, hc.of_eq rfl rfl rfl hmodel⟩

namespace Kept

variable {s : Stream}

theorem new (m : Model) (settings : StreamSettings) : Kept settings [m] (new m settings) :=
  ⟨rfl, .new m settings, .new m settings, ⟨nofun, nofun⟩⟩

/-- The phase is set where an advance ends. -/
theorem settle {a : Advance} (hsettings : a.stream.settings = settings) (ht : a.stream.Tracked)
    (hc : a.stream.Chained chain)
    (hphase : a.result = .ok .awaitingExtension ↔ a.stream.awaiting?.isSome) :
    a.settle.stream.Kept settings chain := by
  obtain ⟨result, t, outputs⟩ := a
  have ht' (phase : Phase) (hasFault : Bool) : Tracked { t with phase, hasFault } :=
    ⟨⟨ht.pending, ht.incoming⟩, ht.flag, ht.resolved, ht.awaited⟩
  cases result with
  | ok phase =>
    refine ⟨hsettings, ht' _ _, hc.of_eq rfl rfl rfl rfl, ?_⟩
    show phase = _ ↔ t.awaiting?.isSome
    rw [← hphase, Except.ok.injEq]
  | error f =>
    refine ⟨hsettings, ht' _ _, hc.of_eq rfl rfl rfl rfl, ?_⟩
    show Phase.terminal = _ ↔ t.awaiting?.isSome
    rw [← hphase]
    exact ⟨nofun, nofun⟩

theorem advance (hs : s.Kept settings chain) (dt : Duration) (inputs outputs : Array Float) :
    (s.advance dt inputs outputs).stream.Kept settings chain := by
  obtain hruns | ⟨result, hadvance⟩ := s.advance_cases dt inputs outputs
  · have hchain : (s.later dt).Chained chain := hs.chained.of_eq rfl rfl rfl rfl
    obtain ⟨hsettings, ht, hc, hphase⟩ := (hs.tracked.later dt).proceed hchain
      s.settings.run.instructionLimit.toNat inputs outputs
    rw [hruns.advance_eq dt]
    exact settle (hsettings.trans hs.settings_eq) ht hc hphase
  · rw [hadvance]
    exact hs

/-- An accepted extension comes first from then on. -/
theorem step (hs : s.Kept settings chain) (e : Event) :
    (s.step e).Kept settings ((s.accepted? e).toList ++ chain) := by
  cases e with
  | advance dt inputs outputs => exact hs.advance dt inputs outputs
  | attach m =>
    cases h : s.attach m with
    | error r =>
      rw [step_of_attach_error h, accepted?, h]
      exact hs
    | ok t =>
      rw [step_of_attach_ok h, accepted?, h]
      obtain ⟨ht, hincoming, hm⟩ := hs.tracked.attach h
      have hc := hs.chained.attach h hincoming hm
      obtain ⟨_, _, _, _, -, -, -, rfl⟩ := attach_ok h
      exact ⟨hs.settings_eq, ht, hc, hs.phase⟩

theorem after (hs : s.Kept settings chain) (events : List Event) :
    (s.after events).Kept settings ((s.accepted events).reverse ++ chain) := by
  induction events generalizing s chain with
  | nil => exact hs
  | cons e rest ih =>
    have hstep := ih (hs.step e)
    rw [accepted, List.reverse_append, List.append_assoc]
    cases h : s.accepted? e with
    | none | some m =>
      rw [h] at hstep
      exact hstep

/-- A stream that is done waits at no point. -/
theorem awaiting?_eq_none (hs : s.Kept settings chain) (hphase : s.phase = .terminal) :
    s.awaiting? = none := by
  rw [← Option.not_isSome_iff_eq_none, ← hs.phase, hphase]
  nofun

/-- Nothing changes a stream that is done. -/
theorem step_terminal (hs : s.Kept settings chain) (hphase : s.phase = .terminal) (e : Event) :
    s.step e = s := by
  cases e with
  | advance dt inputs outputs =>
    simp only [Stream.step, Stream.advance, hphase, if_true]
    split <;> rfl
  | attach m =>
    obtain ⟨r, hr⟩ := hs.tracked.attach_error (hs.awaiting?_eq_none hphase) m
    exact step_of_attach_error hr

end Kept

/-- Whatever calls a stream has seen, what it records of its continuation point, of the extension
that it holds and of its models fits together. -/
theorem consistent_of_history (root : Model) (settings : StreamSettings) (events : List Event) :
    Consistent root settings ((new root settings).accepted events)
      ((new root settings).after events) := by
  have hs := (Kept.new root settings).after events
  generalize (new root settings).accepted events = extensions at hs
  generalize (new root settings).after events = s at hs
  have hmodels : (extensions.reverse ++ [root]).reverse = root :: extensions := by
    rw [List.reverse_append, List.reverse_reverse]
    rfl
  obtain ⟨rfl, ht, hc, hphase⟩ := id hs
  constructor
  case hasIncoming => rw [ht.flag]
  case incoming => exact fun h => ⟨ht.incoming h, ht.resolved h⟩
  case pending =>
    constructor
    · rintro ⟨p, hp, hresolved⟩
      exact ht.pending p hp hresolved
    · rintro ⟨hawaiting, hincoming⟩
      obtain ⟨a, ha⟩ := Option.isSome_iff_exists.1 hawaiting
      obtain ⟨point, -, hp⟩ := (ht.awaited a ha).2 hincoming
      exact ⟨_, hp, rfl⟩
  case pending_eq =>
    intro p hp hresolved
    obtain ⟨a, point, ha, hpoint, rfl⟩ := ht.exists_awaited hp hresolved
    exact ⟨a, point, ha, hpoint, rfl, rfl, rfl⟩
  case phase => exact hphase
  case exclusive =>
    rintro ⟨hwait, hawaiting⟩
    obtain ⟨a, ha⟩ := Option.isSome_iff_exists.1 hawaiting
    rw [(ht.awaited a ha).1] at hwait
    cases hwait
  case terminal =>
    intro h
    have hawaiting := hs.awaiting?_eq_none h
    refine ⟨hawaiting, ?_, ht.attach_error hawaiting, hs.step_terminal h⟩
    -- an extension is held only at a point
    rw [← Option.not_isSome_iff_eq_none]
    intro hincoming
    have hawaiting' := ht.incoming hincoming
    rw [hawaiting] at hawaiting'
    cases hawaiting'
  case lineage => rw [hc.lineage, ← List.map_reverse, hmodels]
  case nodup => exact hc.nodup
  case length_le => exact hc.length_le
  case parents =>
    rw [← hmodels, List.isChain_reverse]
    exact hc.extends_
  case current =>
    intro hincoming
    obtain ⟨rest, hrest⟩ := hc.current
    rw [hincoming] at hrest
    rw [← hmodels, ← hrest, List.reverse_append]
    exact List.getLast?_concat
  case next =>
    intro stage hincoming
    have hcurrent := hc.current
    rw [hincoming] at hcurrent
    rw [← hmodels]
    exact List.reverse_suffix.2 hcurrent

end Stream

end Behavior
