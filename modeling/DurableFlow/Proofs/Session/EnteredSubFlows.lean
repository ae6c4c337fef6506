import DurableFlow.Proofs.Engine.SingleWrites
import DurableFlow.Proofs.Session.Requests

/-! The way into a sub-flow over any store, whatever fails in between. The parent is suspended by one
write and the child is filed by another, so a child that cannot be filed leaves its parent suspended. -/
namespace DurableFlow.Engine
open DurableFlow.Action (Ensures)
open Session (Request inMemory oneNode)
open Store (Changed Filed)
variable {e : Engine} {c : Context} {g : Holding Engine Context}

/-! ## What an entry does -/

/-- A row that was at the version of its copy waits until a time, and so does the copy. No other row
has changed. -/
def Parked (s : Store) (c : Context) (t : Moment) (s' : Store) (c' : Context) : Prop :=
  ∃ i r time updated, c.id = some i ∧ c.version = r.version ∧
    Changed s i [.wakeup (some t)] time r s' ∧
    c'.unbound = { c.unbound with wakeup := some t, version := r.version + 1, updated }

def Prepared (e : Engine) (c : Context) (wakeup : Option Moment) (s' : Store) (c' : Context) : Prop :=
  match wakeup with
  | none => s' = e.store ∧ c'.unbound = c.unbound
  | some t => Parked e.store c t s' c'

structure OpensOn (graph : Flow.Graph) (child : Context) : Prop where
  node : graph.entry?.map Flow.Node.uuid = some child.node
  flow : child.flow = graph.id.getD 0
  flowUuid : child.flowUuid = graph.uuid
  wakeup : child.wakeup = none
  completed : child.completed = none
  results : child.results = .object []
  version : child.version = 1

/-- A child runs the flow of an identifier for its parent. It has the one new row, and besides it the
parent alone may have changed. -/
structure ChildEntered (e : Engine) (c : Context) (flow : Identifier) (wakeup : Option Moment)
    (child : Context) (g : Holding Engine Context) : Prop where
  opens : ∃ found e₁, fetch flow e = .ok found e₁ ∧ OpensOn found.graph child
  parent : child.parent = c.id
  contact : child.contact = c.contact
  filed : ∃ i s, child.id = some i ∧ e.store.row? i = none ∧ Prepared e c wakeup s g.held ∧
    Filed s i child g.state.store

def Stranded (e : Engine) (c : Context) (wakeup : Option Moment) (f : Failure)
    (g : Holding Engine Context) : Prop :=
  ∃ t, wakeup = some t ∧ Parked e.store c t g.state.store g.held ∧
    ∃ child e₁, e₁.store = g.state.store ∧ Action.holding child insert e₁ = .error f g.state

/-! ## The two writes -/

private theorem suspend_parks (he : e.others = []) (t : Moment) :
    Ensures (suspend (some t)) ⟨e, c⟩
      (fun _ g => Surrounded e g.state ∧ g.state.drawn = e.drawn ∧ g.state.IsDated ∧
        Parked e.store c t g.state.store g.held)
      (fun _ g => Untouched e c g) := by
  apply Ensures.bind
  refine (requireOpen_ensures .suspend).mono ?_ (fun _ _ hg => hg ▸ ⟨rfl, rfl⟩)
  rintro _ _ ⟨rfl, _⟩
  apply Ensures.bind
  refine (writeHeld_applies he _ true).mono ?_ (fun _ _ h => ⟨h.1, congrArg _ h.2.1⟩)
  rintro _ g ⟨hs, hd, _, _, i, r, time, ht, hid, hch, hv, hheld⟩
  apply Ensures.bind
  apply Ensures.held
  apply Ensures.beside
  apply Ensures.modify
  refine ⟨⟨hs.others, hs.racing⟩, hd, ⟨time, ht⟩, i, r, time, time.cutToMillis, hid, hv rfl, hch, ?_⟩
  rw [hheld]
  rfl

private theorem start_files (he : e.others = []) (graph : Flow.Graph) (contact : Json)
    (parent : Option String) : Ensures (start graph contact parent) e
      (fun child e' => child.id = some (freshId (e.drawn + 1)) ∧ child.parent = parent ∧
        child.contact = contact ∧ OpensOn graph child ∧
        Filed e.store (freshId (e.drawn + 1)) child e'.store)
      (fun f e' => e'.store = e.store ∧ (graph.isEmpty = false → e.IsDated →
        ∃ child, Action.holding child insert e = .error f e')) := by
  unfold start
  split
  · rename_i hentry
    refine Ensures.throw ⟨rfl, fun hempty => ?_⟩
    rw [Flow.Graph.isEmpty, List.head?_eq_none_iff.mp hentry] at hempty
    cases hempty
  · rename_i entry hentry
    apply Ensures.bind
    apply Ensures.bind
    apply Ensures.get
    refine Ensures.ofExcept ?_ fun f hf => ⟨rfl, fun _ hdated => ?_⟩
    · intro time _
      dsimp only
      apply Ensures.bind
      -- the failure of the insertion is told by the step itself
      generalize hnew : Context.mk none contact _ _ _ _ _ _ _ _ _ _ _ = new
      have hid : new.id = none := by rw [← hnew]
      refine ((insert_applies he hid).and .itself).mono ?_
        (fun _ _ h => ⟨h.1.2.2, fun _ _ => ⟨new, h.2⟩⟩)
      rintro ⟨_, child⟩ e₁ ⟨⟨_, _, stamp, hi⟩, _⟩
      obtain ⟨hheld, hfiled, _⟩ := (Store.insert_ensures _ stamp e.store new).of_eq_ok hi
      dsimp only at hheld hfiled
      simp only [hid, Option.getD_none] at hfiled
      apply Ensures.bind
      apply Ensures.modify
      apply Ensures.pure
      rw [hheld, ← hnew] at hfiled ⊢
      exact ⟨rfl, rfl, rfl, ⟨by rw [hentry]; rfl, rfl, rfl, rfl, rfl, rfl, rfl⟩, hfiled⟩
    · obtain ⟨t, ht⟩ := hdated
      rw [ht] at hf
      cases hf

/-! ## The whole entry -/

private theorem Prepared.same {wakeup : Option Moment} {s : Store} {c' : Context}
    (h : Prepared e c wakeup s c') : c'.contact = c.contact ∧ c'.id = c.id := by
  change c'.unbound.contact = c.contact ∧ c'.unbound.id = c.id
  cases wakeup with
  | none =>
    rw [h.2]
    exact ⟨rfl, rfl⟩
  | some t =>
    obtain ⟨_, _, _, _, _, _, _, hheld⟩ := h
    rw [hheld]
    exact ⟨rfl, rfl⟩

private theorem enter_files {flow : Identifier} {wakeup : Option Moment} {found : Compilation}
    {e₁ : Engine} (hfound : fetch flow e = .ok found e₁) (hopen : found.graph.isEmpty = false)
    (hfree : e.store.row? (freshId (e.drawn + 1)) = none) (ho : g.state.others = [])
    (hd : g.state.drawn = e.drawn) (hp : Prepared e c wakeup g.state.store g.held)
    (hdated : wakeup.isSome → g.state.IsDated) (text : Context → Context → String) :
    Ensures (do
      let parent ← Action.held
      let child ← Action.beside (start found.graph parent.contact parent.id)
      remark .debug (text parent child)
      return child) g
      (fun child g' => ChildEntered e c flow wakeup child g')
      (fun f g' => Untouched e c g' ∨ Stranded e c wakeup f g') := by
  obtain ⟨hcontact, hid⟩ := hp.same
  apply Ensures.bind
  apply Ensures.held
  apply Ensures.bind
  apply Ensures.beside
  refine (start_files ho found.graph _ _).mono ?_ ?_
  · rintro child e₂ ⟨hchild, hparent, hchildContact, hopens, hfiled⟩
    apply Ensures.bind
    apply Ensures.beside
    apply Ensures.modify
    rw [hd] at hchild hfiled
    exact Ensures.pure ⟨⟨found, e₁, hfound, hopens⟩, hparent.trans hid,
      hchildContact.trans hcontact, _, _, hchild, hfree, hp, hfiled⟩
  · rintro f e₂ ⟨hs, hinsert⟩
    cases wakeup with
    | none => exact .inl ⟨hs.trans hp.1, hp.2⟩
    | some t =>
      obtain ⟨child, hchild⟩ := hinsert hopen (hdated rfl)
      have hparked : Parked e.store c t e₂.store g.held := by
        rw [hs]
        exact hp
      exact .inr ⟨t, rfl, hparked, child, _, hs.symm, hchild⟩

/-- An entry that fails has changed nothing, unless a wakeup time was given and the store refused to
file the child: then the parent waits, row and copy alike, and nothing else has changed. An entry that
succeeds has filed one child, and has changed the parent only if a wakeup time was given. -/
theorem enterSubFlow_outcome (he : e.others = [])
    (hfree : e.store.row? (freshId (e.drawn + 1)) = none) (flow : Identifier)
    (wakeup : Option Moment) : Ensures (enterSubFlow flow wakeup) ⟨e, c⟩
      (fun child g => ChildEntered e c flow wakeup child g)
      (fun f g => Untouched e c g ∨ Stranded e c wakeup f g) := by
  unfold enterSubFlow
  apply Ensures.bind
  refine (requireOpen_ensures .enter).mono ?_ (fun _ _ hg => hg ▸ .inl ⟨rfl, rfl⟩)
  rintro _ _ ⟨rfl, _⟩
  apply Ensures.bind
  apply Ensures.beside
  refine (((fetch_yields flow).quietly e he).and .itself).mono ?_ (fun _ _ h => .inl ⟨h.1.store, rfl⟩)
  rintro found e₁ ⟨hq, hfound⟩
  have ho₁ : e₁.others = [] := hq.others.trans he
  dsimp only
  split
  · exact Ensures.throw (.inl ⟨hq.store, rfl⟩)
  · rename_i hopen
    have hopen' : found.graph.isEmpty = false := Bool.eq_false_iff.mpr hopen
    cases wakeup with
    | none =>
      have hp : Prepared e c none e₁.store c := ⟨hq.store, rfl⟩
      exact enter_files hfound hopen' hfree ho₁ hq.drawn hp (fun h => by cases h) _
    | some t =>
      apply Ensures.bind
      refine (suspend_parks ho₁ t).mono ?_ (fun _ _ h => .inl ⟨h.1.trans hq.store, h.2⟩)
      rintro _ g ⟨hs, hd, hdated, hp⟩
      rw [hq.store] at hp
      have hprepared : Prepared e c (some t) g.state.store g.held := hp
      exact enter_files hfound hopen' hfree (hs.others.trans ho₁) (hd.trans hq.drawn) hprepared
        (fun _ => hdated) _

/-- A copy of version one enters the flow in the registry, and waits for its child. -/
theorem enterSubFlow_outcome_waits :
    let s := inMemory.run [.call (.start oneNode (.int 7) none),
      .call (.meanwhile (fun e => { e with registry := e.registry.insert ⟨0, oneNode⟩ })
        fun _ => ⟨rfl, rfl, rfl, rfl⟩)]
    let flow : Identifier := .value (.int 1)
    let wakeup := some (Moment.utc 9000000)
    s.engine.others = [] ∧ s.engine.store.row? (freshId (s.engine.drawn + 1)) = none ∧
      ∃ c child g, s.copies = [c] ∧ enterSubFlow flow wakeup ⟨s.engine, c⟩ = .ok child g ∧
        ChildEntered s.engine c flow wakeup child g := by
  intro s flow wakeup
  have halone : s.engine.others = [] := rfl
  have hfree : s.engine.store.row? (freshId (s.engine.drawn + 1)) = none := by decide +kernel
  obtain ⟨c, hc⟩ : ∃ c, s.copies = [c] := List.length_eq_one_iff.mp (by decide +kernel)
  have hanswers : s.copies.all (fun c => match enterSubFlow flow wakeup ⟨s.engine, c⟩ with
      | .ok _ _ => true
      | .error _ _ => false) = true := by decide +kernel
  rw [hc] at hanswers
  refine ⟨halone, hfree, c, ?_⟩
  have houtcome := enterSubFlow_outcome halone hfree flow wakeup (c := c)
  cases hrun : enterSubFlow flow wakeup ⟨s.engine, c⟩ with
  | ok child g => exact ⟨child, g, hc, rfl, houtcome.of_eq_ok hrun⟩
  | error f g => simp [hrun] at hanswers

/-- The store fails to file a child. The entry fails, yet the parent that was to wait for the child has
been suspended, row and copy alike. -/
theorem refused_child_strands_parent :
    let before : List Request := [.call (.start oneNode (.int 7) none),
      .call (.meanwhile (fun e => { e with
          registry := e.registry.insert ⟨0, oneNode⟩
          faults := e.faults.failNext .insert [true] })
        fun _ => ⟨rfl, rfl, rfl, rfl⟩)]
    let s := inMemory.run before
    let t := Moment.utc 9000000
    let (answer, s') := (Request.call (.through 0 (.enter (.value (.int 1)) (some t)))).perform s
    answer = .error (.storage .unavailable) ∧ s'.engine.store.contextCount = 1 ∧
      (s.engine.store.row? (freshId 1)).map (fun r => (r.wakeup, r.version)) = some (none, 1) ∧
      (s'.engine.store.row? (freshId 1)).map (fun r => (r.wakeup, r.version)) = some (some t, 2) ∧
      s'.copies.map (fun c => (c.wakeup, c.version)) = [(some t, 2)] := by
  decide +kernel

end DurableFlow.Engine
