import DurableFlow.Proofs.Engine.Disciplines
import DurableFlow.Proofs.Engine.SuccessfulTransitions

/-! Single writes. A transition fails and leaves store and copy as they were, or it changes one row and
its copy alike. Only an advance that finds a node missing does the one and the other. -/
namespace DurableFlow.Engine
open DurableFlow.Action (Ensures)
open Store (Changed Deed Done Kind SameFlows)
variable {α β : Type} {e e' : Engine} {c : Context} {g g' : Holding Engine Context}

/-! ## Rows and copies -/

def Untouched (e : Engine) (c : Context) (g : Holding Engine Context) : Prop :=
  g.state.store = e.store ∧ g.held.unbound = c.unbound

/-- A row and a copy both say what a change says: a time to the millisecond, a name if it is a text. -/
def Echo (r c : Context) : Context.Change → Prop
  | .node v => c.node = v ∧ ∀ s, v = .string s → r.node = v
  | .wakeup t => c.wakeup = t ∧ r.wakeup.map Moment.millis = t.map Moment.millis
  | .completed t => c.completed = t ∧ r.completed.map Moment.millis = t.map Moment.millis
  | .results v => c.results = v ∧ r.results = v
  | .other _ => True

/-- A deed has been done on one row, one version later, and on its copy alike. No other row and no flow
has changed. -/
structure DoneAlike (d : Deed) (s : Store) (c : Context) (s' : Store) (c' : Context) : Prop where
  done : Done d s c.unbound s' c'.unbound
  flows : SameFlows s s'
  version : ∀ i r, c.id = some i → s'.row? i = some r → r.version = c'.version
  updated : ∀ i r, c.id = some i → s'.row? i = some r → r.updated.millis = c'.updated.millis
  echo : ∀ i r, c.id = some i → s'.row? i = some r → ∀ ch ∈ d.changes c.results, Echo r c' ch

def DoneEven (d : Deed) (s : Store) (c : Context) (s' : Store) (c' : Context) : Prop :=
  DoneAlike d s c s' c' ∧ Even s c

private theorem echo_changes (d : Deed) (k : Kind) (now updated : Moment) (r c : Context)
    (results : Json) (v : Int) {ch : Context.Change} (hch : ch ∈ d.changes results) :
    Echo (k.changed (d.changes results) now r)
      { c.applyAll (d.changes results) with version := v, updated } ch := by
  cases d with
  | move node =>
    rcases List.mem_cons.mp hch with rfl | hch
    · refine ⟨rfl, ?_⟩
      rintro s rfl
      exact k.node_string s
    · cases List.mem_singleton.mp hch
      exact ⟨rfl, rfl⟩
  | finish t =>
    rcases List.mem_cons.mp hch with rfl | hch
    · exact ⟨rfl, k.map_millis_time (some t)⟩
    · cases List.mem_singleton.mp hch
      exact ⟨rfl, rfl⟩
  | park wakeup =>
    cases List.mem_singleton.mp hch
    exact ⟨rfl, k.map_millis_time wakeup⟩
  | record values =>
    cases results with
    | object old =>
      cases List.mem_singleton.mp hch
      exact ⟨rfl, rfl⟩
    | _ => cases hch

namespace Untouched

theorem refl : Untouched e c ⟨e, c⟩ := ⟨rfl, rfl⟩

theorem trans (h : Untouched e c g) (h' : Untouched g.state g.held g') : Untouched e c g' :=
  ⟨h'.1.trans h.1, h'.2.trans h.2⟩

/-- What is done after nothing has been written is all that is done. -/
theorem doneAlike (h : Untouched e c g) {d : Deed} {s' : Store} {c' : Context}
    (hd : DoneAlike d g.state.store g.held s' c') : DoneAlike d e.store c s' c' := by
  obtain ⟨hs, hc⟩ := h
  have hid : c.id = g.held.id := (congrArg Context.id hc).symm
  have hresults : c.results = g.held.results := (congrArg Context.results hc).symm
  obtain ⟨hdone, hflows, hversion, hupdated, hecho⟩ := hd
  rw [hs, hc] at hdone
  rw [hs] at hflows
  rw [← hid] at hversion hupdated
  rw [← hid, ← hresults] at hecho
  exact ⟨hdone, hflows, hversion, hupdated, hecho⟩

theorem doneEven (h : Untouched e c g) {d : Deed} {s' : Store} {c' : Context}
    (hd : DoneEven d g.state.store g.held s' c') : DoneEven d e.store c s' c' := by
  refine ⟨h.doneAlike hd.1, ?_⟩
  have heven : Even g.state.store g.held.unbound := hd.2
  rw [h.1, h.2] at heven
  exact heven

end Untouched

/-! ## The write -/

/-- Changes are made on one row and on the copy, or on neither. -/
theorem writeHeld_applies (he : e.others = []) (chs : List Context.Change) (guarded : Bool) :
    Ensures (writeHeld chs guarded) ⟨e, c⟩
      (fun _ g => Surrounded e g.state ∧ g.state.drawn = e.drawn ∧ SameFlows e.store g.state.store ∧
        (e.store.Sound → g.state.store.Sound) ∧
        ∃ i r time, (Moment.utc g.state.clock).dated = .ok time ∧ c.id = some i ∧
          Changed e.store i chs time r g.state.store ∧ (guarded = true → c.version = r.version) ∧
          g.held = { c.applyAll chs with version := r.version + 1, updated := time.cutToMillis })
      (fun f g => g.state.store = e.store ∧ g.held = c ∧ f.isPlain = true) := by
  apply Ensures.bind
  apply Ensures.held
  apply Ensures.bind
  apply Ensures.beside
  refine ((update_applies he _ _ _).and (update_spares _ _ _ e)).mono ?_
    (fun _ _ h => ⟨h.1.store, rfl, h.2.2⟩)
  rintro v e' ⟨⟨hs, hd, time, _, ht, hu⟩, hsp⟩
  obtain ⟨i, r, hid, hch, rfl, hx⟩ := Store.update_changed hu
  apply Ensures.bind
  apply Ensures.beside
  refine (now_tells ht).mono ?_ (fun _ _ hf => hf.elim)
  rintro _ _ ⟨rfl, rfl⟩
  apply Ensures.alter
  refine ⟨hs, hd, hsp.flows he, fun h => h.update hu, i, r, time, ht, hid, hch, ?_, rfl⟩
  rintro rfl
  exact hx c.version rfl

private theorem writeHeld_does (he : e.others = []) (ho : c.completed = none) {d : Deed}
    {chs : List Context.Change} (hchs : chs = d.changes c.results) {guarded : Bool}
    (hg : guarded = true ∨ ∃ t, d = .finish t) : Ensures (writeHeld chs guarded) ⟨e, c⟩
      (fun _ g => DoneAlike d e.store c g.state.store g.held ∧ (guarded = true → Even e.store c) ∧
        g.held.index = c.index)
      (fun f g => Untouched e c g ∧ f.isPlain = true) := by
  subst hchs
  refine (writeHeld_applies he _ guarded).mono ?_ (fun _ _ h => ⟨⟨h.1, congrArg _ h.2.1⟩, h.2.2⟩)
  rintro _ g ⟨_, _, hflows, _, i, r, time, _, hid, hch, hv, hheld⟩
  have hrow {j : String} {r' : Context} (hj : c.id = some j) (hr : g.state.store.row? j = some r') :
      r' = e.store.kind.changed (d.changes c.results) time r := by
    rw [hid] at hj
    cases hj
    rw [hch.row] at hr
    exact (Option.some.inj hr).symm
  refine ⟨⟨?_, hflows, ?_, ?_, ?_⟩, fun h => ⟨i, r, hid, hch.found, hv h⟩, ?_⟩
  · refine ⟨i, r, time, time.cutToMillis, hid, ho, hch, hg.imp hv id, ?_⟩
    rw [hheld, ← unbound_applyAll]
    rfl
  · intro j r' hj hr
    rw [hrow hj hr, hheld]
    rfl
  · intro j r' hj hr
    rw [hrow hj hr, hheld]
    exact (Kind.millis_time _ time).trans (Store.millis_cutToMillis time).symm
  · intro j r' hj hr ch hmem
    rw [hrow hj hr, hheld]
    exact echo_changes d _ _ _ _ _ _ _ hmem
  · rw [hheld]
    exact (Context.SameFrame.applyAll c (d.changes c.results)).index

/-! ## Steps around the write -/

private theorem beside_quietly {act : Run α} (h : Quietly act) (hf : Fair act) (he : e.others = []) :
    Ensures (Action.beside act) ⟨e, c⟩
      (fun _ g => g.held = c ∧ Quiet e g.state)
      (fun f g => Untouched e c g ∧ f.isPlain = true) := by
  apply Ensures.beside
  exact ((h e he).and (hf e)).mono (fun _ _ h => ⟨rfl, h.1⟩) (fun _ _ h => ⟨⟨h.1.store, rfl⟩, h.2⟩)

private def Remarks (act : OnCopy Unit) : Prop := ∀ g, Ensures act g
  (fun _ g' => g'.state.store = g.state.store ∧ g'.held = g.held) (fun _ _ => False)

private theorem remark_remarks (level : Level) (text : String) : Remarks (remark level text) :=
  fun g => Ensures.beside ((note_ensures level text g.state).mono (fun _ _ hq => ⟨hq.store, rfl⟩)
    (fun _ _ hf => hf))

private theorem held_remarks (level : Level) (text : Context → String) :
    Remarks (do remark level (text (← Action.held))) :=
  fun g => Ensures.bind (Ensures.held (remark_remarks level _ g))

private theorem write_remarks (he : e.others = []) (ho : c.completed = none) {d : Deed}
    {chs : List Context.Change} (hchs : chs = d.changes c.results) {guarded : Bool}
    (hg : guarded = true ∨ ∃ t, d = .finish t) {rest : Unit → OnCopy Unit} (hr : ∀ u, Remarks (rest u)) :
    Ensures (writeHeld chs guarded >>= rest) ⟨e, c⟩
      (fun _ g => DoneAlike d e.store c g.state.store g.held ∧ (guarded = true → Even e.store c) ∧
        g.held.index = c.index)
      (fun f g => Untouched e c g ∧ f.isPlain = true) := by
  apply Ensures.bind
  refine (writeHeld_does he ho hchs hg).mono ?_ (fun _ _ h => h)
  rintro u g hdone
  refine (hr u g).mono ?_ (fun _ _ hf => hf.elim)
  rintro _ g' ⟨hs, hheld⟩
  rw [hs, hheld]
  exact hdone

private theorem open_bind {t : Transition} {next : Unit → OnCopy α}
    {post : α → Holding Engine Context → Prop} {fails : Failure → Holding Engine Context → Prop}
    (h : c.completed = none → Ensures (next ()) ⟨e, c⟩ post fails)
    (hf : ∀ f, f.isPlain = true → fails f ⟨e, c⟩) :
    Ensures (requireOpen t >>= next) ⟨e, c⟩ post fails := by
  apply Ensures.bind
  refine ((requireOpen_ensures t).and (requireOpen_heldSpares t e c)).mono ?_ ?_
  · rintro _ _ ⟨⟨rfl, ho⟩, _⟩
    exact h ho
  · rintro f _ ⟨rfl, _, hplain⟩
    exact hf f hplain

/-- The copy is bound, or the flow cannot be had. -/
theorem bind_quietly (he : e.others = []) : Ensures bind ⟨e, c⟩
    (fun index g => g.held = { c with index := some index } ∧ Quiet e g.state)
    (fun f g => Untouched e c g ∧ f.isPlain = true) := by
  apply Ensures.bind
  apply Ensures.held
  split
  · rename_i index hindex
    exact Ensures.pure ⟨by rw [← hindex], .refl⟩
  · apply Ensures.bind
    refine (beside_quietly (fetch_yields _).quietly (fetch_fair _) he).mono ?_ (fun _ _ h => h)
    rintro found ⟨e₁, _⟩ ⟨rfl, hq⟩
    apply Ensures.bind
    apply Ensures.alter
    exact Ensures.pure ⟨rfl, hq⟩

/-! ## Transitions -/

/-- An advance has taken an exit of the node of the copy, by the index that the copy now carries. -/
def Advanced (e : Engine) (c : Context) (choice : Json) (g : Holding Engine Context) : Prop :=
  ∃ destination d, Leads { c with index := g.held.index } choice destination ∧
    Arrives destination d ∧ DoneEven d e.store c g.state.store g.held

/-- The index that the copy now carries lacks a node, and the context has been completed. -/
def Abandoned (e : Engine) (c : Context) (f : Failure) (g : Holding Engine Context) : Prop :=
  ∃ index node t, g.held.index = some index ∧ index.lookup? node = .ok none ∧
    f = .dangling c.id node ∧ DoneAlike (.finish t) e.store c g.state.store g.held

private theorem abandon_ends (he : e.others = []) (ho : c.completed = none) (node : Json) :
    Ensures (abandon node : OnCopy α) ⟨e, c⟩ (fun _ _ => False)
      (fun f g => Untouched e c g ∧ f.isPlain = true ∨ g.held.index = c.index ∧
        ∃ t, f = .dangling c.id node ∧ DoneAlike (.finish t) e.store c g.state.store g.held) := by
  unfold abandon
  apply Ensures.bind
  apply Ensures.held
  apply Ensures.bind
  refine (beside_quietly (note_yields _ _).quietly (note_spares _ _).fair he).mono ?_ (fun _ _ h => .inl h)
  rintro _ ⟨e₁, _⟩ ⟨rfl, hq₁⟩
  apply Ensures.bind
  refine (beside_quietly now_yields.quietly now_spares.fair (hq₁.others.trans he)).mono ?_
    (fun _ _ h => .inl ⟨⟨h.1.1.trans hq₁.store, h.1.2⟩, h.2⟩)
  rintro t ⟨e₂, _⟩ ⟨rfl, hq₂⟩
  have hq := hq₁.trans hq₂
  apply Ensures.bind
  refine (writeHeld_does (hq.others.trans he) ho (d := .finish t) rfl (.inr ⟨t, rfl⟩)).mono ?_
    (fun _ _ h => .inl ⟨⟨h.1.1.trans hq.store, h.1.2⟩, h.2⟩)
  rintro _ g ⟨hdone, _, hindex⟩
  apply Ensures.bind
  apply Ensures.held
  have hid : g.held.id = _ := hdone.done.sameFrame.id
  have hu : Untouched e _ ⟨e₂, _⟩ := ⟨hq.store, rfl⟩
  exact Ensures.throw (.inr ⟨hindex, t, congrArg (Failure.dangling · node) hid, hu.doneAlike hdone⟩)

private theorem advance_single (he : e.others = []) (choice : Json) :
    Ensures (advance choice) ⟨e, c⟩ (fun _ g => Advanced e c choice g)
      (fun f g => Untouched e c g ∧ f.isPlain = true ∨ Abandoned e c f g) := by
  unfold advance
  refine open_bind (fun ho => ?_) fun f hf => .inl ⟨.refl, hf⟩
  apply Ensures.bind
  refine (bind_quietly he).mono ?_ (fun _ _ h => .inl h)
  rintro index ⟨e₁, d⟩ ⟨hbound, hq₁⟩
  have he₁ := hq₁.others.trans he
  have hd : d = { c with index := some index } := hbound
  have hindex : d.index = some index := by rw [hd]
  have hod : d.completed = none := by rw [hd, ← ho]
  have hid : d.id = c.id := by rw [hd]
  have hu₁ : Untouched e c ⟨e₁, d⟩ := ⟨hq₁.store, by rw [hd]; rfl⟩
  -- a node that is missing is told by the index that the copy carries since it was bound
  have habandon {node : Json} (hnone : index.lookup? node = .ok none) :
      Ensures (abandon node : OnCopy Unit) ⟨e₁, d⟩ (fun _ g => Advanced e c choice g)
        (fun f g => Untouched e c g ∧ f.isPlain = true ∨ Abandoned e c f g) := by
    refine (abandon_ends he₁ hod node).mono (fun _ _ h => h.elim) ?_
    rintro f g (⟨hu, hf⟩ | ⟨hsame, t, rfl, hdone⟩)
    · exact .inl ⟨hu₁.trans hu, hf⟩
    · exact .inr ⟨index, node, t, hsame.trans hindex, hnone, by rw [hid], hu₁.doneAlike hdone⟩
  apply Ensures.bind
  apply Ensures.held
  apply Ensures.bind
  refine Ensures.ofExcept (fun found hfound => ?_)
    (fun f hf => .inl ⟨hu₁, (Flow.lookup?_commonly _ _).plainly _ hf⟩)
  cases found with
  | none => exact habandon hfound
  | some node =>
    apply Ensures.bind
    refine Ensures.ofExcept (fun destination hdestination => ?_)
      (fun f hf => .inl ⟨hu₁, Flow.destination_plainly _ _ _ hf⟩)
    have hleads {g : Holding Engine Context} (hsame : g.held.index = d.index)
        (h : ∀ v, destination = some v → ∃ next, index.lookup? v = .ok (some next)) :
        Leads { c with index := g.held.index } choice destination := by
      refine ⟨index, node, hsame.trans hindex, ?_, hdestination, h⟩
      rw [← hfound, hd]
    cases destination with
    | none =>
      apply Ensures.bind
      refine (beside_quietly now_yields.quietly now_spares.fair he₁).mono ?_
        (fun _ _ h => .inl ⟨hu₁.trans h.1, h.2⟩)
      rintro t ⟨e₂, d₂⟩ ⟨hheld, hq₂⟩
      obtain rfl : d₂ = d := hheld
      have hu₂ : Untouched e c ⟨e₂, d₂⟩ := hu₁.trans ⟨hq₂.store, rfl⟩
      refine (write_remarks (hq₂.others.trans he₁) hod (d := .finish t) rfl (.inl rfl)
        fun _ => remark_remarks _ _).mono ?_ (fun _ _ h => .inl ⟨hu₂.trans h.1, h.2⟩)
      rintro _ g ⟨hdone, heven, hsame⟩
      exact ⟨none, .finish t, hleads hsame (fun _ h => by cases h), ⟨t, rfl⟩,
        hu₂.doneEven ⟨hdone, heven rfl⟩⟩
    | some v =>
      apply Ensures.bind
      refine Ensures.ofExcept (fun there hthere => ?_)
        (fun f hf => .inl ⟨hu₁, (Flow.lookup?_commonly _ _).plainly _ hf⟩)
      cases there with
      | none => exact habandon hthere
      | some next =>
        refine (write_remarks he₁ hod (d := .move v) rfl (.inl rfl) fun _ => remark_remarks _ _).mono
          ?_ (fun _ _ h => .inl ⟨hu₁.trans h.1, h.2⟩)
        rintro _ g ⟨hdone, heven, hsame⟩
        refine ⟨some v, .move v, hleads hsame ?_, rfl, hu₁.doneEven ⟨hdone, heven rfl⟩⟩
        rintro _ ⟨⟩
        exact ⟨next, hthere⟩

private theorem suspend_single (he : e.others = []) (t : Moment) :
    Ensures (suspend (some t)) ⟨e, c⟩
      (fun _ g => DoneEven (.park (some t)) e.store c g.state.store g.held)
      (fun _ g => Untouched e c g) := by
  refine open_bind (fun ho => ?_) fun _ _ => .refl
  exact (write_remarks he ho (d := .park (some t)) rfl (.inl rfl) fun _ => held_remarks _ _).mono
    (fun _ _ h => ⟨h.1, h.2.1 rfl⟩) (fun _ _ h => h.1)

/-- A resumption parks row and copy until no time, or does nothing. -/
theorem resume_single (he : e.others = []) : Ensures resume ⟨e, c⟩
    (fun _ g => DoneEven (.park none) e.store c g.state.store g.held)
    (fun _ g => Untouched e c g) := by
  refine open_bind (fun ho => ?_) fun _ _ => .refl
  exact (write_remarks he ho (d := .park none) rfl (.inl rfl) fun _ => held_remarks _ _).mono
    (fun _ _ h => ⟨h.1, h.2.1 rfl⟩) (fun _ _ h => h.1)

/-- A completion finishes row and copy, or does nothing. -/
theorem complete_single (he : e.others = []) : Ensures complete ⟨e, c⟩
    (fun _ g => ∃ t, DoneAlike (.finish t) e.store c g.state.store g.held)
    (fun _ g => Untouched e c g) := by
  refine open_bind (fun ho => ?_) fun _ _ => .refl
  apply Ensures.bind
  refine (beside_quietly now_yields.quietly now_spares.fair he).mono ?_ (fun _ _ h => h.1)
  rintro t ⟨e₁, d⟩ ⟨hheld, hq⟩
  obtain rfl : d = c := hheld
  have hu : Untouched e d ⟨e₁, d⟩ := ⟨hq.store, rfl⟩
  exact (write_remarks (hq.others.trans he) ho (d := .finish t) rfl (.inr ⟨t, rfl⟩)
    fun _ => held_remarks _ _).mono (fun _ _ h => ⟨t, hu.doneAlike h.1⟩) (fun _ _ h => hu.trans h.1)

private theorem record_single (he : e.others = []) (values : List (String × Json)) :
    Ensures (record values) ⟨e, c⟩
      (fun _ g => values = [] ∧ Untouched e c g ∨ values ≠ [] ∧ (∃ old, c.results = .object old) ∧
        DoneEven (.record values) e.store c g.state.store g.held)
      (fun _ g => Untouched e c g) := by
  unfold record
  split
  · exact Ensures.throw .refl
  · refine open_bind (fun ho => ?_) fun _ _ => .refl
    split
    · rename_i hvalues
      apply Ensures.bind
      apply Ensures.held
      split
      · rename_i old hold
        refine (writeHeld_does he ho (d := .record values) (by rw [hold]; rfl) (.inl rfl)).mono ?_
          (fun _ _ h => h.1)
        rintro _ g ⟨hdone, heven, _⟩
        exact .inr ⟨by simpa using hvalues, ⟨old, hold⟩, hdone, heven rfl⟩
      · exact Ensures.throw .refl
    · rename_i hvalues
      exact Ensures.pure (.inl ⟨by simpa using hvalues, .refl⟩)

private def straying : Context :=
  ⟨some "c", .int 7, 1, none, .string "n1", none, none, none, .object [], 1, Moment.utc 0, Moment.utc 0,
    some ⟨[⟨.string "n1", [], [⟨.string "e1", some (.string "n2")⟩], none⟩]⟩⟩

end DurableFlow.Engine
