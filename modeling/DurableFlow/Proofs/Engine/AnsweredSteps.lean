import DurableFlow.Proofs.Engine.LostRaces
import DurableFlow.Proofs.Engine.ResolvedFlows
import DurableFlow.Proofs.Engine.WalkedRows

/-! Steps that succeed. Where no fault is planned, the store is connected and the clock shows a date, a
write through an open copy fails for its version alone, and an exit from a sub-flow hands the parent
back. -/
namespace DurableFlow

namespace Store
variable {s s' : Store} {i : String} {r : Context}

/-- The copy of a row that a read hands out. A server may keep a contact that is no number. -/
def Kind.read (k : Kind) (r : Context) : Except Failure Context :=
  match k, r.contact with
  | .memory, _ => .ok r
  | .rows, _ | .keys, .int _ => r.dated
  | .keys, v =>
    match Text.readInteger (Keys.fieldText v) with
    | some n => ({ r with contact := .int n } : Context).dated
    | none => .error (.notANumeral (Keys.fieldText v))

/-- What is read by an id depends on its row alone. -/
theorem getContext_of_row (hr : s.row? i = some r) : s.getContext (some i) =
    if s.isConnected then (s.kind.read r).map some else .error (.storage .notConnected) := by
  cases s with
  | memory m => exact congrArg Except.ok hr
  | rows t =>
    obtain ⟨row, hrow, rfl⟩ := Option.map_eq_some_iff.mp hr
    have hfind : (t.contexts.find? fun row => some row.id = some i) = some row := by
      simpa using hrow
    change t.getContext (some i) = if t.connected then _ else _
    simp only [Rows.getContext, Rows.checkConnected, hfind, Option.mapM_some]
    cases t.connected <;> rfl
  | keys k =>
    simp only [row?] at hr
    split at hr
    · rename_i row hrow
      cases hr
      have hread : Keys.readRow row = Kind.keys.read row.context := by
        have hcontact : row.context.contact = row.contact := rfl
        unfold Keys.readRow Kind.read
        rw [hcontact]
        cases row.contact <;> rfl
      change k.getContext (some i) = if k.connected then _ else _
      simp only [Keys.getContext, Keys.checkConnected, Keys.contextAt, Server.context?_eq_some.mpr hrow,
        kind, ← hread]
      cases k.connected
      · rfl
      · change (do return some (← Keys.readRow row)) = (Keys.readRow row).map some
        cases Keys.readRow row <;> rfl
    · cases hr

/-- A row can be read if one with the same contact can, and a calendar still shows its times. -/
theorem Kind.read_congr {k : Kind} {r' d : Context} (h : k.read r = .ok d)
    (hc : r'.contact = r.contact) (hl : r.isLegible = true → r'.isLegible = true) :
    ∃ d', k.read r' = .ok d' := by
  have hdated {x x' : Context} (hx : x.dated = .ok d) (hl : x.isLegible = true → x'.isLegible = true) :
      ∃ d', x'.dated = .ok d' :=
    ⟨x', Context.dated_of_isLegible (hl (Context.dated_eq_ok.mp hx).1)⟩
  unfold Kind.read at h ⊢
  rw [hc]
  split at h
  · exact ⟨_, rfl⟩
  · exact hdated h hl
  · exact hdated h hl
  · split at h
    · exact hdated h hl
    · cases h

end Store

namespace Engine
open DurableFlow.Action (Ensures)
open Store (Changed Lives SameFlows)
variable {e e' : Engine} {c d : Context} {i : String} {r : Context} {flow : Identifier}
  {graph graph' : Flow.Graph}

structure CanWrite (e : Engine) : Prop where
  unfailing : e.faults = .none
  connected : e.store.isConnected = true
  dated : e.IsDated

theorem CanWrite.calm (h : CanWrite e) (hc : Calm e e') : CanWrite e' where
  unfailing := hc.faults.trans h.unfailing
  connected := hc.store ▸ h.connected
  dated := by
    obtain ⟨t, ht⟩ := h.dated
    exact ⟨t, hc.clock ▸ ht⟩

theorem CanWrite.contested (h : CanWrite e) : Contested [] e := ⟨h.unfailing, h.connected, h.dated⟩

/-! ## Flows and copies -/

theorem Compiles.unique {s : Store} (h : Compiles s flow graph) (h' : Compiles s flow graph') :
    graph' = graph := by
  obtain ⟨d, live, body, hd, hlive, hbody, hgraph⟩ := h
  obtain ⟨d', live', body', hd', hlive', hbody', hgraph'⟩ := h'
  cases hd.symm.trans hd'
  cases hlive.symm.trans hlive'
  cases hbody.symm.trans hbody'
  exact Except.ok.inj (hgraph'.symm.trans hgraph)

theorem Compiles.congr {s s' : Store} (h : SameFlows s s') :
    Compiles s' flow graph ↔ Compiles s flow graph := by
  simp only [Compiles, h.getFlow, h.liveRevision]

def Provides (e : Engine) (flow : Identifier) (graph : Flow.Graph) : Prop :=
  match e.registry.get? flow with
  | some c => c.graph = graph
  | none => Compiles e.store flow graph

theorem Provides.unique (h : Provides e flow graph) (h' : Provides e flow graph') :
    graph' = graph := by
  unfold Provides at h h'
  cases hc : e.registry.get? flow with
  | some c =>
    rw [hc] at h h'
    exact h'.symm.trans h
  | none =>
    rw [hc] at h h'
    exact Compiles.unique h h'

theorem Provides.congr (hr : e'.registry = e.registry) (hf : SameFlows e.store e'.store) :
    Provides e' flow graph ↔ Provides e flow graph := by
  unfold Provides
  rw [hr]
  split
  · exact Iff.rfl
  · exact Compiles.congr hf

private theorem loadOne_calm (ho : e.others = []) (hf : e.faults = .none) (flow : Identifier) :
    Ensures (loadOne flow) e (fun _ e' => Calm e e') (fun _ e' => Calm e e') := by
  have hask {α : Type} (op : Operation) (f : Store → Except Failure α) :
      Ensures (ask op f) e (fun _ e' => e = e') (fun _ e' => Calm e e') := by
    unfold Ensures
    rw [ask_unchanged ho hf op f]
    exact Ensures.ofExcept (fun _ _ => rfl) fun _ _ => .refl e
  apply Ensures.bind
  refine (hask _ _).mono ?_ fun _ _ h => h
  rintro found _ rfl
  cases found with
  | none => exact Ensures.throw (.refl e)
  | some d =>
    apply Ensures.bind
    apply Ensures.bind
    refine (hask _ _).mono ?_ fun _ _ h => h
    rintro live _ rfl
    cases live with
    | none => exact Ensures.throw (.refl e)
    | some live =>
      apply Ensures.bind
      refine (note_calm _ _).mono ?_ fun _ _ h => h.elim
      rintro _ e₁ ⟨hcalm, -⟩
      refine Ensures.ofExcept (fun body _ => ?_) fun _ _ => hcalm
      exact (compile_calm d body).mono (fun _ _ h => hcalm.trans h.1) fun _ _ h => hcalm.trans h.1

/-- A flow is fetched as it is provided, and fails to be fetched if it is not. From then on it is
provided by the registry. -/
theorem fetch_provides (ho : e.others = []) (hf : e.faults = .none) (flow : Identifier) :
    Ensures (fetch flow) e
      (fun found e' => Provides e flow found.graph ∧ Calm e e' ∧ Provides e' flow found.graph)
      (fun _ e' => (∀ graph, ¬ Provides e flow graph) ∧ Calm e e') := by
  unfold fetch
  apply Ensures.bind
  apply Ensures.get
  cases hc : e.registry.get? flow with
  | some c =>
    have hprovides : Provides e flow c.graph := by simp only [Provides, hc]
    exact Ensures.pure ⟨hprovides, .refl e, hprovides⟩
  | none =>
    apply Ensures.bind
    refine ((loadOne_compiles ho hf flow).and ((loadOne_calm ho hf flow).and
      (loadOne_spares flow e))).mono ?_ ?_
    · rintro found e₁ ⟨hcompiles, hcalm, hspared⟩
      have hfree : e₁.registry.get? flow = none := hspared.registry ▸ hc
      apply Ensures.bind
      apply Ensures.modify
      refine Ensures.pure ⟨?_, hcalm.trans ⟨rfl, rfl, rfl, rfl, rfl, rfl⟩, ?_⟩
      · simpa only [Provides, hc] using hcompiles
      · cases hagain : (e₁.registry.insert found).get? flow with
        | some found' =>
          cases Registry.eq_of_get?_insert hfree hagain
          simp only [Provides, hagain]
        | none =>
          simp only [Provides, hagain, hcalm.store]
          exact hcompiles
    · rintro _ e₁ ⟨hnone, hcalm, -⟩
      refine ⟨fun graph hgraph => ?_, hcalm⟩
      simp only [Provides, hc] at hgraph
      exact hnone graph hgraph

/-- The copy that a load of a context hands out: the row as it is read, with the node index of its
flow. -/
def LoadsAs (e : Engine) (i : String) (c : Context) : Prop :=
  ∃ d graph, e.store.getContext (some i) = .ok (some d) ∧ Provides e d.flow graph ∧
    c = { d with index := some graph.index }

theorem LoadsAs.unique (h : LoadsAs e i c) (h' : LoadsAs e i d) : d = c := by
  obtain ⟨x, graph, hx, hgraph, rfl⟩ := h
  obtain ⟨x', graph', hx', hgraph', rfl⟩ := h'
  cases hx.symm.trans hx'
  rw [hgraph.unique hgraph']

/-- A context loads as before while its row and the flows stay as they are. -/
theorem LoadsAs.congr (h : LoadsAs e i c) (hs : Spared e e') (ho : e.others = [])
    (hk : e'.store.kind = e.store.kind) (hc : e'.store.isConnected = e.store.isConnected)
    (hr : e.store.row? i = some r) (hr' : e'.store.row? i = some r) : LoadsAs e' i c := by
  obtain ⟨d, graph, hd, hgraph, rfl⟩ := h
  refine ⟨d, graph, ?_, (Provides.congr hs.registry (hs.flows ho)).mpr hgraph, rfl⟩
  rw [← hd, Store.getContext_of_row hr, Store.getContext_of_row hr', hk, hc]

/-- A copy that is loaded is the row, but for the number that its contact may spell and the index. -/
theorem LoadsAs.row (h : LoadsAs e i c) (hs : e.store.Sound) : ∃ r graph, e.store.row? i = some r ∧
    Provides e r.flow graph ∧
    c = { r with contact := e.store.kind.told r.contact, index := some graph.index } ∧
    c.id = some i := by
  obtain ⟨d, graph, hd, hgraph, rfl⟩ := h
  obtain ⟨⟨j, r, hj, hr, rfl⟩, hid⟩ := hs.getContext_copied hd
  have hij : some j = some i := hj.symm.trans hid
  cases hij
  exact ⟨r, graph, hr, hgraph, rfl, hid⟩

/-- A context is loaded as it loads, and fails to be loaded if it does not. It loads alike from then
on. -/
theorem load_loadsAs (ho : e.others = []) (hs : e.store.Sound) (hf : e.faults = .none) (i : String) :
    Ensures (load (some i)) e (fun c e' => LoadsAs e i c ∧ Calm e e' ∧ LoadsAs e' i c)
      (fun _ e' => (∀ c, ¬ LoadsAs e i c) ∧ Calm e e') := by
  have hask : Ensures (ask .getContext (Store.getContext (some i))) e
      (fun found e' => e' = e ∧ e.store.getContext (some i) = .ok found)
      (fun f e' => e.store.getContext (some i) = .error f ∧ Calm e e') := by
    unfold Ensures
    rw [ask_unchanged ho hf]
    exact Ensures.ofExcept (fun _ h => ⟨rfl, h⟩) fun _ h => ⟨h, .refl e⟩
  have hbind {found : Context} (hfound : e.store.getContext (some i) = .ok (some found)) :
      Ensures (Action.holding found bind) e
        (fun p e' => LoadsAs e i p.2 ∧ Calm e e' ∧ LoadsAs e' i p.2)
        (fun _ e' => (∀ c, ¬ LoadsAs e i c) ∧ Calm e e') := by
    obtain ⟨⟨j, r, hj, hr, hcopy⟩, -⟩ := hs.getContext_copied hfound
    have hindex : found.index = none := by
      rw [hcopy]
      exact hs.index_eq_none (r := r) hr
    apply Ensures.holding
    unfold bind
    apply Ensures.bind
    apply Ensures.held
    simp only [hindex]
    apply Ensures.bind
    apply Ensures.beside
    refine (fetch_provides ho hf found.flow).mono ?_ ?_
    · rintro compiled e₁ ⟨hprovides, hcalm, hagain⟩
      apply Ensures.bind
      apply Ensures.alter
      exact Ensures.pure ⟨⟨found, compiled.graph, hfound, hprovides, rfl⟩, hcalm,
        ⟨found, compiled.graph, hcalm.store ▸ hfound, hagain, rfl⟩⟩
    · rintro _ e₁ ⟨hnone, hcalm⟩
      refine ⟨?_, hcalm⟩
      rintro c ⟨d, graph, hd, hgraph, -⟩
      cases hfound.symm.trans hd
      exact hnone graph hgraph
  unfold load stored
  apply Ensures.bind
  apply Ensures.bind
  refine hask.mono ?_ ?_
  · rintro found _ ⟨rfl, hfound⟩
    cases found with
    | none =>
      refine Ensures.throw ⟨?_, .refl _⟩
      rintro c ⟨d, graph, hd, -⟩
      cases hfound.symm.trans hd
    | some found =>
      apply Ensures.pure
      apply Ensures.bind
      exact (hbind hfound).mono (fun _ _ h => Ensures.pure h) fun _ _ h => h
  · rintro f _ ⟨hfailed, hcalm⟩
    refine ⟨?_, hcalm⟩
    rintro c ⟨d, graph, hd, -⟩
    cases hfailed.symm.trans hd

/-! ## Writes -/

/-- A write through a copy succeeds at the version of its row, or at any if it is not guarded. -/
theorem writeHeld_answers (he : e.Ready) (hu : CanWrite e) (hid : c.id = some i)
    (hr : e.store.row? i = some r) {changes : List Context.Change} (hw : Store.WellTyped changes)
    (hfields : Context.unknownFields changes = []) {guarded : Bool}
    (hv : guarded = true → c.version = r.version ∧ Expectable e.store r) :
    Ensures (writeHeld changes guarded) ⟨e, c⟩
      (fun _ g => g.state.Ready ∧ CanWrite g.state ∧ Spared e g.state ∧ ∃ time updated,
        Changed e.store i changes time r g.state.store ∧
        g.held = { c.applyAll changes with version := r.version + 1, updated })
      (fun _ _ => False) := by
  refine (writeHeld_contests hu.contested he hid hr hfields hv).mono ?_ ?_
  · rintro _ g ⟨-, rest, time, updated, hs, hready, hstate, hflows, hch, hheld⟩
    obtain ⟨-, rfl⟩ := hs.eq_zero
    have hfaults : g.state.faults = .none := by
      rw [hstate]
      simp only [losing, hu.unfailing, Faults.none]
    have hun : CanWrite g.state := by
      refine ⟨hfaults, hch.connected.trans hu.connected, ?_⟩
      obtain ⟨t, ht⟩ := hu.dated
      rw [hstate]
      exact ⟨t, ht⟩
    have hspared : Spared e g.state := by
      refine ⟨?_, ?_, fun _ => hflows⟩
      · rw [hstate]
        rfl
      · intro ho
        rw [hstate]
        exact ho
    exact ⟨hready, hun, hspared, time, updated, hch, hheld⟩
  · rintro f _ ⟨rest, -, ⟨-, -, hs⟩ | ⟨hrefused, -⟩⟩
    · obtain ⟨h, -⟩ := hs.eq_zero
      cases h
    · rw [e.store.kind.accept_of_wellTyped hw] at hrefused
      cases hrefused

/-! ## Transitions -/

theorem requireOpen_answers (t : Transition) (ho : c.completed = none) :
    Ensures (requireOpen t) ⟨e, c⟩ (fun _ g => g = ⟨e, c⟩) (fun _ _ => False) := by
  unfold requireOpen
  apply Ensures.bind
  apply Ensures.held
  have hopen : c.isCompleted = false := by rw [Context.isCompleted, ho]; rfl
  rw [hopen]
  exact Ensures.pure rfl

/-- A remark changes the journal alone. -/
theorem remark_answers (level : Level) (text : String) {g : Holding Engine Context} :
    Ensures (remark level text) g
      (fun _ g' => ∃ journal, g' = ⟨{ g.state with journal }, g.held⟩) (fun _ _ => False) :=
  Ensures.beside (Ensures.modify ⟨_, rfl⟩)

private theorem CanWrite.noted (h : CanWrite e) (journal : List (Level × String)) :
    CanWrite { e with journal } := ⟨h.unfailing, h.connected, h.dated⟩

theorem Ready.noted (h : e.Ready) (journal : List (Level × String)) :
    ({ e with journal } : Engine).Ready := ⟨h.alone, h.unraced, h.sound, h.drawn⟩

/-- A resumption succeeds through an open copy at the version of its row. -/
theorem resume_answers (he : e.Ready) (hu : CanWrite e) (hid : c.id = some i)
    (hr : e.store.row? i = some r) (ho : c.completed = none) (hv : c.version = r.version)
    (hb : Expectable e.store r) : Ensures resume ⟨e, c⟩
      (fun _ g => ∃ time updated, Changed e.store i [.wakeup none] time r g.state.store ∧
        g.held = { c with wakeup := none, version := r.version + 1, updated })
      (fun _ _ => False) := by
  have hwell : Store.WellTyped [.wakeup none] := fun v hv => by simp at hv
  unfold resume
  apply Ensures.bind
  refine (requireOpen_answers .resume ho).mono ?_ fun _ _ h => h
  rintro _ _ rfl
  apply Ensures.bind
  refine (writeHeld_answers he hu hid hr hwell rfl fun _ => ⟨hv, hb⟩).mono ?_ fun _ _ h => h
  rintro _ g ⟨-, -, -, time, updated, hch, hheld⟩
  apply Ensures.bind
  apply Ensures.held
  refine (remark_answers _ _).mono ?_ fun _ _ h => h
  rintro _ _ ⟨_, rfl⟩
  exact ⟨time, updated, hch, hheld⟩

/-- A forced completion succeeds through any open copy of a row. -/
theorem complete_answers (he : e.Ready) (hu : CanWrite e) (hid : c.id = some i)
    (hr : e.store.row? i = some r) (ho : c.completed = none) : Ensures complete ⟨e, c⟩
      (fun _ g => g.state.Ready ∧ CanWrite g.state ∧ Spared e g.state ∧ ∃ t time,
        Changed e.store i [.completed (some t), .wakeup none] time r g.state.store)
      (fun _ _ => False) := by
  unfold complete
  apply Ensures.bind
  refine (requireOpen_answers .complete ho).mono ?_ fun _ _ h => h
  rintro _ _ rfl
  apply Ensures.bind
  apply Ensures.beside
  refine (now_ensures hu.dated).mono ?_ fun _ _ h => h
  rintro t _ rfl
  have hwell : Store.WellTyped [.completed (some t), .wakeup none] := fun v hv => by simp at hv
  apply Ensures.bind
  refine (writeHeld_answers he hu hid hr hwell rfl fun h => by cases h).mono ?_ fun _ _ h => h
  rintro _ g ⟨hready, hun, hspared, time, -, hch, -⟩
  apply Ensures.bind
  apply Ensures.held
  refine (remark_answers _ _).mono ?_ fun _ _ h => h
  rintro _ _ ⟨journal, rfl⟩
  exact ⟨hready.noted journal, hun.noted journal, hspared.trans (.of_eq rfl rfl rfl), t, time, hch⟩

/-- A parent that has been handed back: the copy as it was loaded and the row as it stood, but neither of
them waits any longer. -/
structure HandedBack (p : String) (r d parent : Context) (s : Store) : Prop where
  same : ∃ version updated, parent = { d with wakeup := none, version, updated }
  row : ∃ r', s.row? p = some r' ∧ r'.wakeup = none ∧ Lives s.kind (· = .park none) r r'

theorem wakeup_eq_none {d : Context} (ho : d.completed = none)
    (hs : ¬ d.isSuspended = true) : d.wakeup = none := by
  cases hw : d.wakeup with
  | none => rfl
  | some t => simp [Context.isSuspended, Context.status, ho, hw] at hs

private theorem leave_answers (he : e.Ready) (hu : CanWrite e) {p : String}
    (hp : e.store.row? p = some r) (ho : r.completed = none) (hb : Expectable e.store r)
    (hload : LoadsAs e p d) (text : Context → String) :
    Ensures (do
      let parent ← Action.beside (load (some p))
      let parent ← if parent.isSuspended then
          Action.beside do return (← Action.holding parent resume).2
        else pure parent
      remark .debug (text parent)
      return parent) ⟨e, c⟩
      (fun parent g => HandedBack p r d parent g.state.store ∧
        ∀ j, j ≠ p → g.state.store.row? j = e.store.row? j) (fun _ _ => False) := by
  obtain ⟨r', graph, hr', -, hd, hid⟩ := hload.row he.sound
  cases hp.symm.trans hr'
  have hopen : d.completed = none := by rw [hd]; exact ho
  have hversion : d.version = r.version := by rw [hd]
  have hlast {e₁ : Engine} {parent : Context} (hback : HandedBack p r d parent e₁.store)
      (hothers : ∀ j, j ≠ p → e₁.store.row? j = e.store.row? j) :
      Ensures (do remark .debug (text parent); return parent : OnCopy Context) ⟨e₁, c⟩
        (fun parent g => HandedBack p r d parent g.state.store ∧
          ∀ j, j ≠ p → g.state.store.row? j = e.store.row? j) (fun _ _ => False) := by
    apply Ensures.bind
    refine (remark_answers _ _).mono ?_ fun _ _ h => h
    rintro _ _ ⟨_, rfl⟩
    exact Ensures.pure ⟨hback, hothers⟩
  apply Ensures.bind
  apply Ensures.beside
  have hloads := load_loadsAs he.alone he.sound hu.unfailing p
  refine (hloads.and (load_ensures he p)).mono ?_ fun _ _ h => h.1.1 d hload
  rintro d' e₁ ⟨⟨hload', hcalm, -⟩, he₁, -⟩
  cases hload.unique hload'
  have hrow : e₁.store.row? p = some r := hcalm.store ▸ hp
  dsimp only
  split
  · apply Ensures.bind
    apply Ensures.beside
    apply Ensures.bind
    apply Ensures.holding
    refine (resume_answers he₁ (hu.calm hcalm) hid hrow hopen hversion ?_).mono ?_ fun _ _ h => h
    · rw [hcalm.store]
      exact hb
    · rintro _ g ⟨time, updated, hch, hheld⟩
      apply Ensures.pure
      have hlives : Lives e₁.store.kind (· = .park none) r
          (e₁.store.kind.changed ((Store.Deed.park none).changes r.results) time r) :=
        .step .refl ho rfl
      refine hlast ⟨⟨_, updated, hheld⟩, _, hch.row, rfl, hch.kind ▸ hlives⟩ ?_
      intro j hj
      rw [hch.others j hj, hcalm.store]
  · rename_i hwaits
    have hwake := wakeup_eq_none hopen hwaits
    refine hlast ⟨⟨d.version, d.updated, ?_⟩, r, hrow, ?_, .refl⟩ fun j _ => by rw [hcalm.store]
    · rw [← hwake]
    · rw [hd] at hwake
      exact hwake

/-- Where nothing hinders the engine, an exit through any copy of a child hands back the open parent as
it stands, and leaves the child completed. A copy that is closed must not be ahead of its row. -/
theorem exitSubFlow_returns (he : e.Ready) (hu : CanWrite e) (hid : c.id = some i)
    (hr : e.store.row? i = some r) (hclosed : c.completed ≠ none → r.completed ≠ none)
    {p : String} (hparent : c.parent = some p) (hip : p ≠ i) {rp : Context}
    (hp : e.store.row? p = some rp) (ho : rp.completed = none) (hb : Expectable e.store rp)
    (hload : LoadsAs e p d) : Ensures exitSubFlow ⟨e, c⟩
      (fun parent g => HandedBack p rp d parent g.state.store ∧
        ∃ r', g.state.store.row? i = some r' ∧ r'.completed ≠ none)
      (fun _ _ => False) := by
  unfold exitSubFlow
  apply Ensures.bind
  apply Ensures.held
  rw [hparent]
  dsimp only
  split
  · rename_i hcompleted
    have hopen : c.completed = none := by simpa [Context.isCompleted] using hcompleted
    apply Ensures.bind
    refine (remark_answers _ _).mono ?_ fun _ _ h => h
    rintro _ _ ⟨journal, rfl⟩
    apply Ensures.bind
    refine (complete_answers (he.noted journal) (hu.noted journal) hid hr hopen).mono ?_ fun _ _ h => h
    rintro _ g ⟨hready, hun, hspared, t, time, hch⟩
    have hrow : g.state.store.row? p = some rp := (hch.others p hip).trans hp
    have hexpect : Expectable g.state.store rp := by
      intro hk
      exact hb (hch.kind.symm.trans hk)
    have hnoted : Spared e { e with journal } := .of_eq rfl rfl rfl
    have hload' : LoadsAs g.state p d :=
      hload.congr (hnoted.trans hspared) he.alone hch.kind hch.connected hp hrow
    refine (leave_answers hready hun hrow ho hexpect hload' _).mono ?_ fun _ _ h => h
    rintro parent g' ⟨hback, hothers⟩
    refine ⟨hback, _, (hothers i (Ne.symm hip)).trans hch.row, ?_⟩
    exact Option.some_ne_none _
  · rename_i hcompleted
    have hdone : c.completed ≠ none := fun h => hcompleted (by simp [Context.isCompleted, h])
    refine (leave_answers he hu hp ho hb hload _).mono ?_ fun _ _ h => h
    rintro parent g' ⟨hback, hothers⟩
    exact ⟨hback, r, (hothers i (Ne.symm hip)).trans hr, hclosed hdone⟩

end Engine
end DurableFlow
