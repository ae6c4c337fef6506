import DurableFlow.Proofs.Engine.SparingSteps
import DurableFlow.Proofs.Engine.SubFlows

/-! Disciplines: invariants of an engine and of the copies that are about. What is owed to keep one is
said once for each kind of write; the transitions of a copy then uphold every discipline. -/
namespace DurableFlow.Engine
open DurableFlow.Action (Ensures)
open Store (Copied Deed Done Filed SameFlows)
variable {α β : Type} {e e' : Engine} {c c' : Context} {g g' : Holding Engine Context}

/-! ## What is written -/

abbrev Taken := Option (String × Json)

structure Wrote (d : Deed) (e : Engine) (c : Context) (e' : Engine) (c' : Context) : Prop where
  ready : e'.Ready
  registry : e'.registry = e.registry
  flows : SameFlows e.store e'.store
  done : Done d e.store c.unbound e'.store c'.unbound
  index : c'.index = c.index

structure Started (graph : Flow.Graph) (parent : Option String) (e : Engine) (c : Context)
    (e' : Engine) : Prop where
  ready : e'.Ready
  registry : e'.registry = e.registry
  flows : SameFlows e.store e'.store
  filed : ∃ i, c.id = some i ∧ e.store.row? i = none ∧ Filed e.store i c e'.store
  flow : c.flow = graph.id.getD 0
  node : ∃ entry, graph.entry? = some entry ∧ c.node = entry.uuid
  parent : c.parent = parent
  completed : c.completed = none
  index : c.index = some graph.index

/-- Where a choice leads from the node of a copy, by the index that the copy carries: to a node of
the index, or to the end. -/
def Leads (c : Context) (choice : Json) (destination : Option Json) : Prop :=
  ∃ index node, c.index = some index ∧ index.lookup? c.node = .ok (some node) ∧
    node.destination choice = .ok destination ∧
    ∀ v, destination = some v → ∃ next, index.lookup? v = .ok (some next)

def Dangles (c : Context) : Prop :=
  ∃ index, c.index = some index ∧ (index.lookup? c.node = .ok none ∨
    ∃ node choice v, index.lookup? c.node = .ok (some node) ∧
      node.destination choice = .ok (some v) ∧ index.lookup? v = .ok none)

def Arrives (destination : Option Json) (d : Deed) : Prop :=
  match destination with
  | some v => d = .move v
  | none => ∃ t, d = .finish t

def Even (s : Store) (c : Context) : Prop :=
  ∃ i r, c.id = some i ∧ s.row? i = some r ∧ c.version = r.version

theorem Wrote.id {d : Deed} (h : Wrote d e c e' c') : c'.id = c.id := h.done.sameFrame.id

/-- A finished copy dangles as it did before. -/
theorem Wrote.dangles {t : Moment} (h : Wrote (.finish t) e c e' c') (hc : Dangles c) :
    Dangles c' := by
  obtain ⟨i, r, time, updated, _, _, _, _, hc'⟩ := h.done
  have hunbound := congrArg Context.node hc'
  have hnode : c'.node = c.node := hunbound
  obtain ⟨index, hindex, hlacks⟩ := hc
  refine ⟨index, h.index.trans hindex, ?_⟩
  rw [hnode]
  exact hlacks

/-! ## Disciplines -/

/-- An invariant of engines and copies, with what one step may do to the store. `Grows` is told the
advance of the step, if there was one; `Fails` says which failures may come of a store. -/
structure Discipline where
  Holds : Engine → Prop
  Keeps : Store → Context → Prop
  Grows : Taken → Store → Store → Prop
  Finds : Identifier → Compilation → Prop
  Knows : Flow.Graph → Prop
  Parents : Store → Option String → Prop
  Fails : Store → Failure → Prop
  ready {e : Engine} : Holds e → e.Ready
  same {e e' : Engine} : Holds e → e'.Ready → e'.store = e.store → e'.registry = e.registry → Holds e'
  refl (s : Store) : Grows none s s
  trans {taken : Taken} {s s' s'' : Store} : Grows none s s' → Grows taken s' s'' → Grows taken s s''
  keeps {taken : Taken} {s s' : Store} {c : Context} : Grows taken s s' → Keeps s c → Keeps s' c
  named {s : Store} {c : Context} : Keeps s c → ∃ i, c.id = some i
  orphan (s : Store) : Parents s none
  parent {s : Store} {c : Context} : Keeps s c → Parents s c.id
  fails {s : Store} {f : Failure} : (∀ i node, f ≠ .dangling i node) → Fails s f
  finds {e : Engine} (flow : Identifier) : Holds e →
    Ensures (fetch flow) e (fun found e' => Holds e' ∧ Finds flow found) (fun _ e' => Holds e')
  knows {flow : Identifier} {found : Compilation} : Finds flow found → Knows found.graph
  reads {e : Engine} {c : Context} : Holds e → Copied e.store c → Keeps e.store c
  binds {s : Store} {c : Context} {found : Compilation} : Keeps s c → Finds c.flow found →
    Keeps s { c with index := some found.graph.index }
  settles {d : Deed} {e e' : Engine} {c c' : Context} : Holds e → Keeps e.store c →
    (∀ v, d ≠ .move v) → Wrote d e c e' c' →
    Holds e' ∧ Grows none e.store e'.store ∧ Keeps e'.store c'
  advances {i : String} {choice : Json} {destination : Option Json} {d : Deed} {e e' : Engine}
    {c c' : Context} : Holds e → Keeps e.store c → c.id = some i → Even e.store c →
    Leads c choice destination → Arrives destination d → Wrote d e c e' c' →
    Holds e' ∧ Grows (some (i, choice)) e.store e'.store ∧ Keeps e'.store c'
  dangles {s : Store} {c : Context} : Keeps s c → Dangles c →
    ∀ node, Fails s (.dangling c.id node)
  files {graph : Flow.Graph} {parent : Option String} {e e' : Engine} {c : Context} : Holds e →
    Knows graph → Parents e.store parent → Started graph parent e c e' →
    Holds e' ∧ Grows none e.store e'.store ∧ Keeps e'.store c

namespace Discipline
variable (P : Discipline)

theorem fails_of_plain {s : Store} {f : Failure} (h : f.isPlain = true) : P.Fails s f := by
  apply P.fails
  rintro i node rfl
  cases h

structure Step (taken : Taken) (e e' : Engine) : Prop where
  holds : P.Holds e'
  grows : P.Grows taken e.store e'.store

structure Through (taken : Taken) (e : Engine) (c : Context) (g : Holding Engine Context) :
    Prop where
  step : P.Step taken e g.state
  keeps : P.Keeps g.state.store g.held
  id : g.held.id = c.id

/-- A step that upholds the discipline. Only its success may be the advance of a context. -/
def Upholds (taken : Taken) (act : Run α) (post : α → Engine → Prop) (e : Engine) : Prop :=
  Ensures act e (fun a e' => P.Step taken e e' ∧ post a e')
    (fun f e' => P.Step none e e' ∧ P.Fails e'.store f)

def HeldUpholds (taken : Taken) (act : OnCopy α) (post : α → Holding Engine Context → Prop)
    (e : Engine) (c : Context) : Prop :=
  Ensures act ⟨e, c⟩ (fun a g => P.Through taken e c g ∧ post a g)
    (fun f g => P.Through none e c g ∧ P.Fails g.state.store f)

/-- A step through any copy that is kept upholds the discipline, and advances nothing. -/
def Rests (act : OnCopy α) : Prop :=
  ∀ e c, P.Holds e → P.Keeps e.store c → P.HeldUpholds none act (fun _ _ => True) e c

variable {P} {taken : Taken}

namespace Step

theorem refl (he : P.Holds e) : P.Step none e e := ⟨he, P.refl _⟩

theorem trans {e'' : Engine} (h : P.Step none e e') (h' : P.Step taken e' e'') :
    P.Step taken e e'' := ⟨h'.holds, P.trans h.grows h'.grows⟩

theorem of_eq (he : P.Holds e) (hr : e'.Ready) (hs : e'.store = e.store)
    (hg : e'.registry = e.registry) : P.Step none e e' :=
  ⟨P.same he hr hs hg, hs ▸ P.refl _⟩

theorem of_spared (he : P.Holds e) (hq : Quiet e e') (hs : Spared e e') : P.Step none e e' :=
  .of_eq he ((P.ready he).quiet hq) hq.store hs.registry

end Step

namespace Through

theorem refl (he : P.Holds e) (hc : P.Keeps e.store c) : P.Through none e c ⟨e, c⟩ :=
  ⟨.refl he, hc, rfl⟩

theorem trans (h : P.Through none e c g) (h' : P.Through taken g.state g.held g') :
    P.Through taken e c g' := ⟨h.step.trans h'.step, h'.keeps, h'.id.trans h.id⟩

/-- Steps beside a copy keep it. -/
theorem beside (h : P.Step taken e e') (hc : P.Keeps e.store c) : P.Through taken e c ⟨e', c⟩ :=
  ⟨h, P.keeps h.grows hc, rfl⟩

end Through

namespace Upholds
variable {post : α → Engine → Prop} {act : Run α}

/-- What a step upholds is upheld with what came before it. -/
theorem after (h : P.Upholds taken act post e') (hs : P.Step none e e') :
    Ensures act e' (fun a e' => P.Step taken e e' ∧ post a e')
      (fun f e' => P.Step none e e' ∧ P.Fails e'.store f) :=
  Ensures.mono h (fun _ _ h => ⟨hs.trans h.1, h.2⟩) (fun _ _ h => ⟨hs.trans h.1, h.2⟩)

theorem mono {post' : α → Engine → Prop} (h : P.Upholds taken act post e)
    (hp : ∀ a e', P.Step taken e e' → post a e' → post' a e') : P.Upholds taken act post' e :=
  Ensures.mono h (fun a e' h => ⟨h.1, hp a e' h.1 h.2⟩) (fun _ _ h => h)

protected theorem pure {a : α} (he : P.Holds e) (h : post a e) :
    P.Upholds none (pure a : Run α) post e := Ensures.pure ⟨.refl he, h⟩

protected theorem throw {f : Failure} (he : P.Holds e) (h : P.Fails e.store f) :
    P.Upholds none (throw f : Run α) post e := Ensures.throw ⟨.refl he, h⟩

protected theorem bind {next : α → Run β} {post' : β → Engine → Prop}
    (h : P.Upholds none act post e)
    (hn : ∀ a e', P.Step none e e' → post a e' → P.Upholds taken (next a) post' e') :
    P.Upholds taken (act >>= next) post' e := by
  apply Ensures.bind
  refine Ensures.mono h ?_ (fun _ _ h => h)
  rintro a e' ⟨hs, ha⟩
  exact (hn a e' hs ha).after hs

/-- A step that no context can tell, and that spares the flows. -/
theorem of_quiet (he : P.Holds e) (hs : Spares act)
    (h : Ensures act e (fun a e' => Quiet e e' ∧ post a e') (fun _ e' => Quiet e e')) :
    P.Upholds none act post e := by
  refine (h.and (hs e)).mono ?_ ?_
  · rintro a e' ⟨⟨hq, ha⟩, hsp⟩
    exact ⟨.of_spared he hq hsp, ha⟩
  · rintro f e' ⟨hq, hsp, hf⟩
    exact ⟨.of_spared he hq hsp, P.fails_of_plain hf⟩

theorem quietly (he : P.Holds e) (hs : Spares act) (hq : Quietly act) :
    P.Upholds none act (fun _ e' => e'.store = e.store) e :=
  of_quiet he hs ((hq e (P.ready he).alone).mono (fun _ _ hq => ⟨hq, hq.store⟩) (fun _ _ hq => hq))

/-- A step on a copy of its own. -/
theorem holding {act : OnCopy α} {post : α × Context → Engine → Prop}
    (h : P.HeldUpholds taken act (fun a g => post (a, g.held) g.state) e c) :
    P.Upholds taken (Action.holding c act) post e := by
  apply Ensures.holding
  exact Ensures.mono h (fun _ _ h => ⟨h.1.step, h.2⟩) (fun _ _ h => ⟨h.1.step, h.2⟩)

end Upholds

theorem note_upholds (he : P.Holds e) (level : Level) (text : String) :
    P.Upholds none (note level text) (fun _ e' => e'.store = e.store) e :=
  .quietly he (note_spares level text) (note_yields level text).quietly

theorem now_upholds (he : P.Holds e) : P.Upholds none now (fun _ e' => e'.store = e.store) e :=
  .quietly he now_spares now_yields.quietly

/-- A read of the store. -/
theorem ask_upholds (he : P.Holds e) (op : Operation) {f : Store → Except Failure α}
    (hf : ∀ s, Plainly (f s)) :
    P.Upholds none (ask op f) (fun a e' => e'.store = e.store ∧ f e.store = .ok a) e :=
  .of_quiet he (ask_spares op hf) ((ask_ensures op f (P.ready he).alone).mono
    (fun _ _ h => ⟨h.1, h.1.store, h.2⟩) (fun _ _ hq => hq))

/-- Whatever is fetched is found. -/
theorem fetch_upholds (he : P.Holds e) (flow : Identifier) :
    P.Upholds none (fetch flow) (fun found e' => e'.store = e.store ∧ P.Finds flow found) e := by
  refine Ensures.mono (Ensures.and (P.finds flow he) (Ensures.and (fetch_fair flow e)
    ((fetch_yields flow).quietly e (P.ready he).alone))) ?_ ?_
  · rintro found e' ⟨⟨hh, hfound⟩, _, hq⟩
    exact ⟨⟨hh, hq.store ▸ P.refl _⟩, hq.store, hfound⟩
  · rintro f e' ⟨hh, hf, hq⟩
    exact ⟨⟨hh, hq.store ▸ P.refl _⟩, P.fails_of_plain hf⟩

/-! ## Steps through a copy -/

namespace HeldUpholds
variable {act : OnCopy α} {post : α → Holding Engine Context → Prop}

theorem mono {post' : α → Holding Engine Context → Prop} (h : P.HeldUpholds taken act post e c)
    (hp : ∀ a g, P.Through taken e c g → post a g → post' a g) :
    P.HeldUpholds taken act post' e c :=
  Ensures.mono h (fun a g h => ⟨h.1, hp a g h.1 h.2⟩) (fun _ _ h => h)

protected theorem pure {a : α} (he : P.Holds e) (hc : P.Keeps e.store c) (h : post a ⟨e, c⟩) :
    P.HeldUpholds none (pure a : OnCopy α) post e c := Ensures.pure ⟨.refl he hc, h⟩

protected theorem throw {f : Failure} (he : P.Holds e) (hc : P.Keeps e.store c)
    (h : P.Fails e.store f) : P.HeldUpholds none (throw f : OnCopy α) post e c :=
  Ensures.throw ⟨.refl he hc, h⟩

/-- A step that never succeeds advances nothing. -/
theorem never {post : α → Holding Engine Context → Prop}
    (h : P.HeldUpholds none act (fun _ _ => False) e c) : P.HeldUpholds taken act post e c :=
  Ensures.mono h (fun _ _ h => h.2.elim) (fun _ _ h => h)

protected theorem bind {next : α → OnCopy β} {post' : β → Holding Engine Context → Prop}
    (h : P.HeldUpholds none act post e c)
    (hn : ∀ a g, P.Through none e c g → post a g →
      P.HeldUpholds taken (next a) post' g.state g.held) :
    P.HeldUpholds taken (act >>= next) post' e c := by
  apply Ensures.bind
  refine Ensures.mono h ?_ (fun _ _ h => h)
  rintro a g ⟨ht, ha⟩
  exact Ensures.mono (hn a g ht ha) (fun _ _ h' => ⟨ht.trans h'.1, h'.2⟩)
    (fun _ _ h' => ⟨ht.trans h'.1, h'.2⟩)

theorem held_bind {next : Context → OnCopy β} {post : β → Holding Engine Context → Prop}
    (h : P.HeldUpholds taken (next c) post e c) :
    P.HeldUpholds taken (Action.held >>= next) post e c := Ensures.bind (Ensures.held h)

theorem ofExcept_bind {r : Except Failure α} {next : α → OnCopy β}
    {post : β → Holding Engine Context → Prop} (he : P.Holds e) (hc : P.Keeps e.store c)
    (hr : Plainly r) (hn : ∀ a, r = .ok a → P.HeldUpholds taken (next a) post e c) :
    P.HeldUpholds taken (Action.ofExcept r >>= next) post e c :=
  Ensures.bind (Ensures.ofExcept hn fun f hf => ⟨.refl he hc, P.fails_of_plain (hr f hf)⟩)

/-- A step beside the copy leaves the copy alone. -/
protected theorem beside {act : Run α} {post : α → Engine → Prop} (hc : P.Keeps e.store c)
    (h : P.Upholds taken act post e) :
    P.HeldUpholds taken (Action.beside act) (fun a g => post a g.state ∧ g.held = c) e c :=
  Ensures.beside (Ensures.mono h (fun _ _ h => ⟨.beside h.1 hc, h.2, rfl⟩)
    (fun _ _ h => ⟨.beside h.1 hc, h.2⟩))

/-- What follows may forget the copy that it goes through, as long as it is kept. -/
theorem bind_rests {next : α → OnCopy β} (h : P.HeldUpholds none act post e c)
    (hn : ∀ a, P.Rests (next a)) :
    P.HeldUpholds none (act >>= next) (fun _ _ => True) e c :=
  h.bind fun a g ht _ => hn a g.state g.held ht.step.holds ht.keeps

end HeldUpholds

namespace Rests
variable {act : OnCopy α}

protected theorem throw {f : Failure} (h : ∀ s, P.Fails s f) : P.Rests (throw f : OnCopy α) :=
  fun _ _ he hc => .throw he hc (h _)

protected theorem held_bind {next : Context → OnCopy β} (hn : ∀ c, P.Rests (next c)) :
    P.Rests (Action.held >>= next) := fun e c he hc => .held_bind (hn c e c he hc)

end Rests

theorem remark_upholds (he : P.Holds e) (hc : P.Keeps e.store c) (level : Level) (text : String) :
    P.HeldUpholds none (remark level text) (fun _ g => g.state.store = e.store ∧ g.held = c) e c :=
  .beside hc (note_upholds he level text)

/-- A remark on what has been done never fails. -/
theorem HeldUpholds.remark_after {act : OnCopy Unit} {post : Unit → Holding Engine Context → Prop}
    (h : P.HeldUpholds taken act post e c) (level : Level) (text : String) :
    P.HeldUpholds taken (act >>= fun _ => remark level text) (fun _ _ => True) e c := by
  apply Ensures.bind
  refine Ensures.mono h ?_ (fun _ _ h => h)
  rintro _ ⟨e₁, d⟩ ⟨⟨⟨he, hgrows⟩, hd, hid⟩, -⟩
  apply Ensures.beside
  refine ((note_ensures level text e₁).and (note_spares level text e₁)).mono ?_
    (fun _ _ hf => hf.1.elim)
  rintro _ e₂ ⟨hq, hsp⟩
  have hs : e₂.store = e₁.store := hq.store
  refine ⟨⟨⟨P.same he ((P.ready he).quiet hq) hs hsp.registry, ?_⟩, ?_, hid⟩, trivial⟩
  · rw [hs]
    exact hgrows
  · rw [hs]
    exact hd

theorem remark_rests (level : Level) (text : String) : P.Rests (remark level text) :=
  fun _ _ he hc => (remark_upholds he hc level text).mono fun _ _ _ _ => trivial

/-- Only through an open copy it goes on. -/
theorem requireOpen_bind {t : Transition} {next : Unit → OnCopy β}
    {post : β → Holding Engine Context → Prop} (he : P.Holds e) (hc : P.Keeps e.store c)
    (h : c.completed = none → P.HeldUpholds taken (next ()) post e c) :
    P.HeldUpholds taken (requireOpen t >>= next) post e c := by
  have hopen : P.HeldUpholds none (requireOpen t)
      (fun _ g => g = ⟨e, c⟩ ∧ c.completed = none) e c := by
    apply HeldUpholds.held_bind
    split
    · exact .throw he hc (P.fails_of_plain rfl)
    · rename_i ho
      exact .pure he hc ⟨rfl, by simpa [Context.isCompleted] using ho⟩
  refine hopen.bind ?_
  rintro _ _ - ⟨rfl, ho⟩
  exact h ho

/-- The copy carries the index that is found for its flow. -/
theorem bind_upholds (he : P.Holds e) (hc : P.Keeps e.store c) :
    P.HeldUpholds none bind (fun index g => g.state.store = e.store ∧
      g.held = { c with index := some index }) e c := by
  apply HeldUpholds.held_bind
  split
  · rename_i index hindex
    exact .pure he hc ⟨rfl, by rw [← hindex]⟩
  · refine (HeldUpholds.beside hc (fetch_upholds he c.flow)).bind ?_
    rintro found g ht ⟨⟨hs, hfound⟩, hheld⟩
    apply Ensures.bind
    apply Ensures.alter
    rw [hheld]
    refine Ensures.pure ⟨⟨.refl ht.step.holds, ?_, rfl⟩, hs, rfl⟩
    exact P.binds (hheld ▸ ht.keeps) hfound

/-! ## Writes -/

private theorem writeHeld_wrote (he : e.Ready) (ho : c.completed = none) {d : Deed}
    {chs : List Context.Change} (hchs : chs = d.changes c.results) {guarded : Bool}
    (hg : guarded = true ∨ ∃ t, d = .finish t) : Ensures (writeHeld chs guarded) ⟨e, c⟩
      (fun _ g => Wrote d e c g.state g.held ∧ (guarded = true → Even e.store c))
      (fun f g => g.held = c ∧ g.state.Ready ∧ g.state.store = e.store ∧
        g.state.registry = e.registry ∧ f.isPlain = true) := by
  subst hchs
  apply Ensures.bind
  apply Ensures.held
  apply Ensures.bind
  apply Ensures.beside
  refine ((update_ensures he _ _ _).and (update_spares _ _ _ e)).mono ?_ ?_
  · rintro v e' ⟨⟨hr, hdated, i, r, time, hid, hch, rfl, hx⟩, hsp⟩
    apply Ensures.bind
    apply Ensures.beside
    refine (now_ensures hdated).mono ?_ (fun _ _ hf => hf.elim)
    rintro updated _ rfl
    have hv (h : guarded = true) : c.version = r.version := by
      subst h
      exact hx c.version rfl
    apply Ensures.alter
    refine ⟨⟨hr, hsp.registry, hsp.flows he.alone, ?_, ?_⟩, fun h => ⟨i, r, hid, hch.found, hv h⟩⟩
    · refine ⟨i, r, time, updated, hid, ho, hch, hg.imp hv id, ?_⟩
      rw [← unbound_applyAll]
      rfl
    · exact (Context.SameFrame.applyAll c (d.changes c.results)).index
  · rintro f e' ⟨⟨hr, hs⟩, hsp, hf⟩
    exact ⟨rfl, hr, hs, hsp.registry, hf⟩

/-- A write that is no move. -/
theorem writeHeld_upholds (he : P.Holds e) (hc : P.Keeps e.store c) (ho : c.completed = none)
    {d : Deed} (hd : ∀ v, d ≠ .move v) {chs : List Context.Change}
    (hchs : chs = d.changes c.results) {guarded : Bool} (hg : guarded = true ∨ ∃ t, d = .finish t) :
    P.HeldUpholds none (writeHeld chs guarded) (fun _ g => Wrote d e c g.state g.held) e c := by
  refine (writeHeld_wrote (P.ready he) ho hchs hg).mono ?_ ?_
  · rintro _ g ⟨hw, _⟩
    obtain ⟨hh, hgrows, hk⟩ := P.settles he hc hd hw
    exact ⟨⟨⟨hh, hgrows⟩, hk, hw.id⟩, hw⟩
  · rintro f g ⟨hheld, hr, hs, hg, hf⟩
    exact ⟨⟨.of_eq he hr hs hg, by rw [hs, hheld]; exact hc, by rw [hheld]⟩, P.fails_of_plain hf⟩

private theorem advance_write (he : P.Holds e) (hc : P.Keeps e.store c) (ho : c.completed = none)
    {i : String} (hid : c.id = some i) {choice : Json} {destination : Option Json} {d : Deed}
    (hl : Leads c choice destination) (ha : Arrives destination d) {chs : List Context.Change}
    (hchs : chs = d.changes c.results) :
    P.HeldUpholds (some (i, choice)) (writeHeld chs true) (fun _ _ => True) e c := by
  refine (writeHeld_wrote (P.ready he) ho hchs (.inl rfl)).mono ?_ ?_
  · rintro _ g ⟨hw, heven⟩
    obtain ⟨hh, hgrows, hk⟩ := P.advances he hc hid (heven rfl) hl ha hw
    exact ⟨⟨⟨hh, hgrows⟩, hk, hw.id⟩, trivial⟩
  · rintro f g ⟨hheld, hr, hs, hg, hf⟩
    exact ⟨⟨.of_eq he hr hs hg, by rw [hs, hheld]; exact hc, by rw [hheld]⟩, P.fails_of_plain hf⟩

/-! ## Transitions -/

private theorem abandon_upholds (he : P.Holds e) (hc : P.Keeps e.store c) (ho : c.completed = none)
    (hd : Dangles c) (node : Json) (post : α → Holding Engine Context → Prop) :
    P.HeldUpholds none (abandon node : OnCopy α) post e c := by
  unfold abandon
  apply HeldUpholds.held_bind
  refine (remark_upholds he hc _ _).bind ?_
  rintro _ g ht ⟨_, hheld⟩
  refine (HeldUpholds.beside ht.keeps (now_upholds ht.step.holds)).bind ?_
  rintro t g₁ ht₁ ⟨_, hheld₁⟩
  have hsame : g₁.held = c := hheld₁.trans hheld
  have ho₁ : g₁.held.completed = none := hsame ▸ ho
  refine (writeHeld_upholds ht₁.step.holds ht₁.keeps ho₁ (d := .finish t)
    (fun _ h => Deed.noConfusion h) rfl (.inr ⟨t, rfl⟩)).bind ?_
  intro _ g₂ ht₂ hw
  apply HeldUpholds.held_bind
  exact .throw ht₂.step.holds ht₂.keeps (P.dangles ht₂.keeps (hw.dangles (hsame ▸ hd)) node)

/-- An advance that succeeds takes an exit of the node of the copy. -/
theorem advance_upholds (he : P.Holds e) (hc : P.Keeps e.store c) {i : String}
    (hid : c.id = some i) (choice : Json) :
    P.HeldUpholds (some (i, choice)) (advance choice) (fun _ _ => True) e c := by
  unfold advance
  refine requireOpen_bind he hc fun ho => ?_
  refine (bind_upholds he hc).bind ?_
  rintro index ⟨e₁, d⟩ ⟨⟨he₁, _⟩, hd, hid₁⟩ ⟨-, hbound⟩
  have hindex : d.index = some index := congrArg Context.index hbound
  have ho₁ : d.completed = none := (congrArg Context.completed hbound).trans ho
  apply HeldUpholds.held_bind
  refine .ofExcept_bind he₁ hd (Flow.lookup?_commonly index _).plainly ?_
  intro found hfound
  cases found with
  | none =>
    exact .never (abandon_upholds he₁ hd ho₁ ⟨index, hindex, .inl hfound⟩ _ _)
  | some node =>
    refine .ofExcept_bind he₁ hd (Flow.destination_plainly node choice) ?_
    intro destination hdestination
    have hleads (h : ∀ v, destination = some v → ∃ next, index.lookup? v = .ok (some next)) :
        Leads d choice destination := ⟨index, node, hindex, hfound, hdestination, h⟩
    cases destination with
    | none =>
      refine (HeldUpholds.beside hd (now_upholds he₁)).bind ?_
      rintro t ⟨e₂, _⟩ ⟨⟨he₂, _⟩, hd₂, -⟩ ⟨-, rfl⟩
      refine (advance_write he₂ hd₂ ho₁ (hid₁.trans hid) (hleads fun _ h => ?_) ⟨t, rfl⟩
        rfl).remark_after _ _
      cases h
    | some v =>
      refine .ofExcept_bind he₁ hd (Flow.lookup?_commonly index v).plainly ?_
      intro there hthere
      cases there with
      | none =>
        have hdangles : Dangles d :=
          ⟨index, hindex, .inr ⟨node, choice, v, hfound, hdestination, hthere⟩⟩
        exact .never (abandon_upholds he₁ hd ho₁ hdangles _ _)
      | some next =>
        refine (advance_write he₁ hd ho₁ (hid₁.trans hid) (hleads fun _ h => ?_) rfl
          rfl).remark_after _ _
        cases h
        exact ⟨next, hthere⟩

theorem suspend_rests (wakeup : Option Moment) : P.Rests (suspend wakeup) := by
  intro e c he hc
  refine requireOpen_bind he hc fun ho => ?_
  refine (writeHeld_upholds he hc ho (d := .park wakeup) (fun _ h => Deed.noConfusion h) rfl
    (.inl rfl)).bind_rests fun _ => ?_
  split
  · exact .held_bind fun _ => remark_rests _ _
  · exact .throw fun _ => P.fails_of_plain rfl

theorem resume_rests : P.Rests resume := by
  intro e c he hc
  refine requireOpen_bind he hc fun ho => ?_
  refine (writeHeld_upholds he hc ho (d := .park none) (fun _ h => Deed.noConfusion h) rfl
    (.inl rfl)).bind_rests fun _ => ?_
  exact .held_bind fun _ => remark_rests _ _

theorem complete_rests : P.Rests complete := by
  intro e c he hc
  refine requireOpen_bind he hc fun ho => ?_
  refine (HeldUpholds.beside hc (now_upholds he)).bind ?_
  rintro t ⟨e₁, _⟩ ⟨⟨he₁, _⟩, hc₁, -⟩ ⟨-, rfl⟩
  refine (writeHeld_upholds he₁ hc₁ ho (d := .finish t) (fun _ h => Deed.noConfusion h) rfl
    (.inr ⟨t, rfl⟩)).bind_rests fun _ => ?_
  exact .held_bind fun _ => remark_rests _ _

theorem record_rests (values : List (String × Json)) : P.Rests (record values) := by
  intro e c he hc
  unfold record
  split
  · exact .throw he hc (P.fails_of_plain rfl)
  · refine requireOpen_bind he hc fun ho => ?_
    split
    · apply HeldUpholds.held_bind
      split
      · rename_i old hold
        refine (writeHeld_upholds he hc ho (d := .record values) (fun _ h => Deed.noConfusion h) ?_
          (.inl rfl)).mono fun _ _ _ _ => trivial
        rw [hold]
        rfl
      · exact .throw he hc (P.fails_of_plain rfl)
    · exact .pure he hc trivial

end Discipline
end DurableFlow.Engine
