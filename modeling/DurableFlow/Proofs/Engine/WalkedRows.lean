import DurableFlow.Proofs.Engine.Disciplines
import DurableFlow.Proofs.Engine.PublishedFlows

/-! Rows that walk. While a publication is in force, the rows of its flow stand on nodes that it has,
and nothing moves them but successful advances, each along an exit that its author has drawn. -/
namespace DurableFlow
open DurableFlow.Action (Ensures)
open Engine (Arrives Dangles Discipline Even Leads Started Taken Wrote)
open Store (Changed Coherent Copied Deed Done Filed Fits)

/-! ## Changed rows -/

namespace Store
variable {k : Kind} {s s' : Store} {i : String} {r c : Context}

/-- Only a move changes the node of a row. -/
theorem Kind.node_changed {d : Deed} (hd : ∀ v, d ≠ .move v) (results : Json) (now : Moment)
    (r : Context) : (k.changed (d.changes results) now r).node = r.node := by
  cases d with
  | move v => exact absurd rfl (hd v)
  | finish time => rfl
  | park wakeup => rfl
  | record values => cases results <;> rfl

/-- No deed opens a completed row. -/
theorem Kind.completed_changed (d : Deed) (results : Json) (now : Moment)
    (hr : r.completed ≠ none) : (k.changed (d.changes results) now r).completed ≠ none := by
  cases d with
  | move v => exact hr
  | finish time =>
    intro h
    cases h
  | park wakeup => exact hr
  | record values => cases results <;> exact hr

/-- A row carries no node index. -/
theorem Sound.index_eq_none (hs : s.Sound) (hr : s.row? i = some r) : r.index = none := by
  cases s with
  | memory m => exact (hs.ids i r hr).2
  | rows t =>
    obtain ⟨row, _, rfl⟩ := Option.map_eq_some_iff.mp hr
    rfl
  | keys k =>
    simp only [row?] at hr
    split at hr
    · cases hr
      rfl
    · cases hr

/-- A new row leaves every copy as it fits its own. -/
theorem Filed.fits (h : Filed s i c s') (hn : s.row? i = none) {d : Context} (hd : Fits s d) :
    Fits s' d := by
  obtain ⟨j, r, hid, hr, hv, hm⟩ := hd
  have hj : j ≠ i := by
    rintro rfl
    rw [hn] at hr
    cases hr
  exact ⟨j, r, hid, (h.others j hj).trans hr, hv, fun he => h.kind ▸ hm he⟩

end Store

namespace Flow.Publication
variable (p : Publication)

/-! ## Walks -/

/-- The advance of a row: along the chosen exit of its node, or to its end if nothing is behind the
exit. -/
structure Advances (choice : Json) (r r' : Context) : Prop where
  opened : r.completed = none
  node : r'.node = Authored.follow p.document r.node choice
  ends : ∃ x, Authored.exit? p.document r.node choice = some x ∧
    (r'.completed ≠ none ↔ Authored.destination? x = none)

/-- What one step makes of a row. Only its own advance moves it, and it stays completed. -/
structure Goes (taken : Taken) (i : String) (r r' : Context) : Prop where
  advances : ∀ choice, taken = some (i, choice) → p.Advances choice r r'
  stays : (∀ choice, taken ≠ some (i, choice)) → r'.node = r.node
  completed : r.completed ≠ none → r'.completed ≠ none

structure Born (r : Context) : Prop where
  node : r.node = Authored.entry p.document
  completed : r.completed = none

structure Walks (taken : Taken) (s s' : Store) : Prop where
  fits : ∀ c, Fits s c → Fits s' c
  kept : ∀ i r, s.row? i = some r → ∃ r', s'.row? i = some r' ∧ r'.flow = r.flow ∧
    (r.flow = p.flow → p.Goes taken i r r')
  new : ∀ i r', s.row? i = none → s'.row? i = some r' → r'.flow = p.flow →
    ∃ r, p.Born r ∧ p.Goes taken i r r'
  named : ∀ i choice, taken = some (i, choice) → (s'.row? i).isSome

variable {p} {taken : Taken} {s s' s'' : Store} {i : String} {r r' r'' c : Context}

namespace Goes

theorem refl (h : ∀ choice, taken ≠ some (i, choice)) : p.Goes taken i r r :=
  ⟨fun choice htaken => absurd htaken (h choice), fun _ => rfl, id⟩

theorem trans (h : p.Goes none i r r') (h' : p.Goes taken i r' r'') : p.Goes taken i r r'' := by
  have hnode : r'.node = r.node := h.stays fun _ hno => by cases hno
  refine ⟨?_, fun hno => (h'.stays hno).trans hnode, fun hc => h'.completed (h.completed hc)⟩
  intro choice htaken
  obtain ⟨ho, hn, hends⟩ := h'.advances choice htaken
  rw [hnode] at hn hends
  exact ⟨Classical.byContradiction fun hc => h.completed hc ho, hn, hends⟩

/-- A deed that is no move leaves a row on its node. -/
theorem of_deed {d : Deed} (hd : ∀ v, d ≠ .move v) {k : Store.Kind} (results : Json) (now : Moment) :
    p.Goes none i r (k.changed (d.changes results) now r) := by
  refine ⟨?_, fun _ => Store.Kind.node_changed hd results now r,
    Store.Kind.completed_changed d results now⟩
  intro choice h
  cases h

end Goes

namespace Walks

theorem refl (s : Store) : p.Walks none s s := by
  refine ⟨fun _ h => h, ?_, ?_, fun _ _ h => by cases h⟩
  · intro i r hr
    exact ⟨r, hr, rfl, fun _ => .refl fun _ h => by cases h⟩
  · intro i r' hn hr'
    rw [hn] at hr'
    cases hr'

theorem trans (h : p.Walks none s s') (h' : p.Walks taken s' s'') : p.Walks taken s s'' := by
  constructor
  · exact fun c hc => h'.fits c (h.fits c hc)
  · intro i r hr
    obtain ⟨r', hr', hflow, hgoes⟩ := h.kept i r hr
    obtain ⟨r'', hr'', hflow', hgoes'⟩ := h'.kept i r' hr'
    exact ⟨r'', hr'', hflow'.trans hflow, fun hf => (hgoes hf).trans (hgoes' (hflow.trans hf))⟩
  · intro i r'' hn hr'' hf
    cases hr' : s'.row? i with
    | none => exact h'.new i r'' hr' hr'' hf
    | some r' =>
      obtain ⟨r₂, hr₂, hflow, hgoes⟩ := h'.kept i r' hr'
      rw [hr''] at hr₂
      cases hr₂
      obtain ⟨r, hborn, hfirst⟩ := h.new i r' hn hr' (hflow.symm.trans hf)
      exact ⟨r, hborn, hfirst.trans (hgoes (hflow.symm.trans hf))⟩
  · exact h'.named

/-- One row has changed, in the way it may go. -/
theorem of_changed {chs : List Context.Change} {now : Moment} (h : Changed s i chs now r s')
    (htaken : ∀ j choice, taken = some (j, choice) → j = i)
    (hgoes : r.flow = p.flow → p.Goes taken i r (s.kind.changed chs now r)) :
    p.Walks taken s s' := by
  refine ⟨fun c hc => h.fits hc, ?_, ?_, ?_⟩
  · intro j r₁ hr₁
    by_cases hj : j = i
    · subst hj
      rw [h.found] at hr₁
      cases hr₁
      exact ⟨_, h.row, (Context.SameFrame.changed _ _ _ _).flow, hgoes⟩
    · exact ⟨r₁, (h.others j hj).trans hr₁, rfl, fun _ => .refl fun _ ht => hj (htaken j _ ht)⟩
  · intro j r' hn hr'
    have hj : j ≠ i := by
      rintro rfl
      rw [h.found] at hn
      cases hn
    rw [h.others j hj, hn] at hr'
    cases hr'
  · intro j choice ht
    rw [htaken j choice ht, h.row]
    rfl

theorem of_filed (h : Filed s i c s') (hn : s.row? i = none)
    (hborn : c.flow = p.flow → p.Born (s.kind.filed c)) : p.Walks none s s' := by
  refine ⟨fun d hd => h.fits hn hd, ?_, ?_, fun _ _ ht => by cases ht⟩
  · intro j r hr
    have hj : j ≠ i := by
      rintro rfl
      rw [hn] at hr
      cases hr
    exact ⟨r, (h.others j hj).trans hr, rfl, fun _ => .refl fun _ ht => by cases ht⟩
  · intro j r' hnone hr' hf
    by_cases hj : j = i
    · subst hj
      rw [h.row] at hr'
      cases hr'
      exact ⟨_, hborn hf, .refl fun _ ht => by cases ht⟩
    · rw [h.others j hj, hnone] at hr'
      cases hr'

end Walks

/-! ## Places -/

def Has (p : Publication) (name : Json) : Prop := ∃ node, p.index.lookup? name = .ok (some node)

def RowsPlaced (p : Publication) (s : Store) : Prop :=
  ∀ i r, s.row? i = some r → r.flow = p.flow → p.Has r.node

/-- A copy that agrees with its row as far as its version tells. If it is one of the flow, it stands
on a node of the publication and carries no other nodes. -/
structure Tracks (p : Publication) (s : Store) (c : Context) : Prop where
  row : ∃ i r, c.id = some i ∧ s.row? i = some r ∧ r.flow = c.flow
  coherent : Coherent s c
  node : c.flow = p.flow → p.Has c.node
  index : ∀ index, c.flow = p.flow → c.index = some index → index = p.index

theorem Has.node_eq {name : Json} (h : p.Has name) (k : Store.Kind) : k.node name = name := by
  obtain ⟨node, hnode⟩ := h
  obtain ⟨text, rfl⟩ := exists_text_of_lookup? hnode
  exact k.node_string text

private theorem Tracks.walks (h : p.Tracks s c) (hw : p.Walks taken s s') : p.Tracks s' c := by
  obtain ⟨i, r, hid, hr, hflow⟩ := h.row
  obtain ⟨r', hr', hflow', _⟩ := hw.kept i r hr
  exact ⟨⟨i, r', hid, hr', hflow'.trans hflow⟩, fun ho => hw.fits c (h.coherent ho), h.node, h.index⟩

private theorem Tracks.bound (h : p.Tracks s c) {index : NodeIndex}
    (hi : c.flow = p.flow → index = p.index) : p.Tracks s { c with index := some index } := by
  refine ⟨h.row, fun ho => (h.coherent ho).of_unbound rfl, h.node, ?_⟩
  rintro _ hf ⟨⟩
  exact hi hf

private theorem tracks_of_copied (hs : s.Sound) (hp : p.RowsPlaced s) (h : Copied s c) :
    p.Tracks s c := by
  have hcurrent := h.current
  obtain ⟨i, r, hid, hr, hc⟩ := h
  have hnode := congrArg Context.node hc
  have hflow := congrArg Context.flow hc
  have hindex := congrArg Context.index hc
  refine ⟨⟨i, r, hid, hr, hflow.symm⟩, hcurrent.coherent, ?_, ?_⟩
  · intro hf
    rw [hnode]
    exact hp i r hr (hflow.symm.trans hf)
  · intro index _ hi
    rw [hindex, hs.index_eq_none hr] at hi
    cases hi

private theorem Tracks.flow_ne_of_dangles (h : p.Tracks s c) (hd : Dangles c) : c.flow ≠ p.flow := by
  intro hf
  obtain ⟨index, hindex, hlacks⟩ := hd
  rw [h.index index hf hindex] at hlacks
  rcases hlacks with hnone | ⟨node, choice, v, hnode, hv, hnone⟩
  · obtain ⟨node, hnode⟩ := h.node hf
    rw [hnode] at hnone
    cases hnone
  · obtain ⟨next, hnext⟩ := exists_next hnode hv
    rw [hnext] at hnone
    cases hnone

/-! ## Deeds -/

section Deeds
variable {d : Deed} {e e' : Engine} {c' : Context}

private theorem Tracks.changed (hc : p.Tracks e.store c) (hw : Wrote d e c e' c') :
    c'.flow = c.flow ∧ ∃ i r time, c.id = some i ∧ c.completed = none ∧ r.flow = c.flow ∧
      Changed e.store i (d.changes c.results) time r e'.store := by
  obtain ⟨i, r, time, _, hid, ho, hch, _⟩ := hw.done
  refine ⟨hw.done.sameFrame.flow, i, r, time, hid, ho, ?_, hch⟩
  obtain ⟨j, r₁, hid₁, hr₁, hflow⟩ := hc.row
  have hsame : c.id = some i := hid
  rw [hid₁] at hsame
  cases hsame
  rw [hch.found] at hr₁
  cases hr₁
  exact hflow

private theorem RowsPlaced.changed (hp : p.RowsPlaced s) {chs : List Context.Change} {now : Moment}
    (h : Changed s i chs now r s')
    (hr : r.flow = p.flow → p.Has (s.kind.changed chs now r).node) : p.RowsPlaced s' := by
  intro j r' hr' hf
  by_cases hj : j = i
  · rw [hj, h.row] at hr'
    cases hr'
    exact hr ((Context.SameFrame.changed _ _ _ _).flow.symm.trans hf)
  · rw [h.others j hj] at hr'
    exact hp j r' hr' hf

private theorem Tracks.wrote (hc : p.Tracks e.store c) (hw : Wrote d e c e' c')
    (hwalks : p.Walks taken e.store e'.store) (hnode : c.flow = p.flow → p.Has c'.node) :
    p.Tracks e'.store c' := by
  obtain ⟨hflow, _⟩ := hc.changed hw
  have hcoherent : Coherent e.store c.unbound := fun ho => (hc.coherent ho).of_unbound rfl
  have hafter := hw.done.coherent hcoherent
  refine ⟨?_, fun ho => (hafter ho).of_unbound rfl, ?_, ?_⟩
  · rw [hw.id, hflow]
    exact (hc.walks hwalks).row
  · rw [hflow]
    exact hnode
  · rw [hflow, hw.index]
    exact hc.index

private theorem node_of_wrote (hd : ∀ v, d ≠ .move v) (hw : Wrote d e c e' c') :
    c'.node = c.node := by
  obtain ⟨_, _, _, _, _, _, _, _, hc'⟩ := hw.done
  have hnode := congrArg Context.node hc'
  cases d with
  | move v => exact absurd rfl (hd v)
  | finish time => exact hnode
  | park wakeup => exact hnode
  | record values =>
    cases hr : c.unbound.results <;> rw [hr] at hnode <;> exact hnode

private theorem node_of_move {v : Json} (hw : Wrote (.move v) e c e' c') : c'.node = v := by
  obtain ⟨_, _, _, _, _, _, _, _, hc'⟩ := hw.done
  exact congrArg Context.node hc'

private theorem Tracks.row_of_even (hc : p.Tracks e.store c) (hid : c.id = some i)
    (hr : e.store.row? i = some r) (ho : c.completed = none) (heven : Even e.store c)
    (hf : c.flow = p.flow) : r.node = c.node ∧ r.completed = none := by
  obtain ⟨j, r', hid', hr', hv⟩ := heven
  rw [hid] at hid'
  cases hid'
  rw [hr] at hr'
  cases hr'
  obtain ⟨_, hm⟩ := (hc.coherent ho).row hid hr
  have hmirrors := hm hv
  exact ⟨hmirrors.node.trans ((hc.node hf).node_eq _), hmirrors.completed_eq_none.mpr ho⟩

private theorem Tracks.exit_of_leads (hc : p.Tracks s c) (hf : c.flow = p.flow) {choice : Json}
    {destination : Option Json} (hl : Leads c choice destination) :
    ∃ x, Authored.exit? p.document c.node choice = some x ∧
      Authored.destination? x = destination ∧ ∀ v, destination = some v → p.Has v := by
  obtain ⟨index, node, hindex, hnode, hdestination, hnext⟩ := hl
  rw [hc.index index hf hindex] at hnode hnext
  obtain ⟨x, hx, hxd⟩ := exit?_of_destination hnode hdestination
  exact ⟨x, hx, hxd, hnext⟩

private theorem advances_of_arrives {choice x : Json} {destination : Option Json}
    (ho : r.completed = none) (hx : Authored.exit? p.document r.node choice = some x)
    (hxd : Authored.destination? x = destination) (hhas : ∀ v, destination = some v → p.Has v)
    (ha : Arrives destination d) (k : Store.Kind) (results : Json) (now : Moment) :
    p.Advances choice r (k.changed (d.changes results) now r) := by
  have hfollow : Authored.follow p.document r.node choice = destination.getD r.node := by
    rw [Authored.follow, hx, Option.bind_some, hxd]
  cases destination with
  | none =>
    obtain ⟨t, rfl⟩ := ha
    refine ⟨ho, hfollow.symm, x, hx, ?_⟩
    rw [hxd]
    exact iff_of_true (fun h => by cases h) rfl
  | some v =>
    cases ha
    refine ⟨ho, ((hhas v rfl).node_eq k).trans hfollow.symm, x, hx, ?_⟩
    rw [hxd]
    exact iff_of_false (fun h => h ho) (fun h => by cases h)

private theorem has_of_arrives {destination : Option Json} (hhas : ∀ v, destination = some v → p.Has v)
    (ha : Arrives destination d) (hw : Wrote d e c e' c') {k : Store.Kind} (hr : p.Has r.node)
    (hc : p.Has c.node) (results : Json) (now : Moment) :
    p.Has (k.changed (d.changes results) now r).node ∧ p.Has c'.node := by
  cases destination with
  | none =>
    obtain ⟨t, rfl⟩ := ha
    rw [node_of_wrote (fun _ h => by cases h) hw]
    exact ⟨hr, hc⟩
  | some v =>
    cases ha
    have hv := hhas v rfl
    have hnode : (k.changed ((Deed.move v).changes results) now r).node = v := hv.node_eq k
    rw [node_of_move hw, hnode]
    exact ⟨hv, hv⟩

end Deeds

/-! ## The discipline of walks -/

structure Rules (p : Publication) (e : Engine) : Prop where
  ready : e.Ready
  inForce : p.InForce e.store
  agrees : p.CarriedBy e.registry
  placed : p.RowsPlaced e.store

def Unharmed (p : Publication) (s : Store) (f : Failure) : Prop :=
  ∀ i node, f = .dangling i node → ∃ j r, i = some j ∧ s.row? j = some r ∧ r.flow ≠ p.flow

section Rules
variable {d : Deed} {e e' : Engine} {c' : Context}

private theorem Rules.settles (he : p.Rules e) (hc : p.Tracks e.store c) (hd : ∀ v, d ≠ .move v)
    (hw : Wrote d e c e' c') :
    p.Rules e' ∧ p.Walks none e.store e'.store ∧ p.Tracks e'.store c' := by
  obtain ⟨_, i, r, time, _, _, _, hch⟩ := hc.changed hw
  have hwalks : p.Walks none e.store e'.store :=
    .of_changed hch (fun _ _ h => by cases h) fun _ => .of_deed hd _ _
  have hplaced : p.RowsPlaced e'.store := by
    refine he.placed.changed hch fun hf => ?_
    rw [Store.Kind.node_changed hd]
    exact he.placed i r hch.found hf
  refine ⟨⟨hw.ready, he.inForce.sameFlows hw.flows, hw.registry ▸ he.agrees, hplaced⟩, hwalks, ?_⟩
  refine hc.wrote hw hwalks fun hf => ?_
  rw [node_of_wrote hd hw]
  exact hc.node hf

private theorem Rules.advances {choice : Json} {destination : Option Json} (he : p.Rules e)
    (hc : p.Tracks e.store c) (hid : c.id = some i) (heven : Even e.store c)
    (hl : Leads c choice destination) (ha : Arrives destination d) (hw : Wrote d e c e' c') :
    p.Rules e' ∧ p.Walks (some (i, choice)) e.store e'.store ∧ p.Tracks e'.store c' := by
  obtain ⟨_, j, r, time, hid', ho, hflow, hch⟩ := hc.changed hw
  rw [hid] at hid'
  cases hid'
  have hadvances (hf : c.flow = p.flow) :
      p.Advances choice r (e.store.kind.changed (d.changes c.results) time r) := by
    obtain ⟨hnode, hopen⟩ := hc.row_of_even hid hch.found ho heven hf
    obtain ⟨x, hx, hxd, hhas⟩ := hc.exit_of_leads hf hl
    rw [← hnode] at hx
    exact advances_of_arrives hopen hx hxd hhas ha _ _ _
  have harrives (hf : c.flow = p.flow) :
      p.Has (e.store.kind.changed (d.changes c.results) time r).node ∧ p.Has c'.node := by
    obtain ⟨_, _, _, hhas⟩ := hc.exit_of_leads hf hl
    exact has_of_arrives hhas ha hw (he.placed i r hch.found (hflow.trans hf)) (hc.node hf) _ _
  have hwalks : p.Walks (some (i, choice)) e.store e'.store := by
    refine .of_changed hch (fun _ _ h => by cases h; rfl) fun hf => ⟨?_, ?_, ?_⟩
    · rintro _ ⟨⟩
      exact hadvances (hflow.symm.trans hf)
    · intro hno
      exact absurd rfl (hno choice)
    · exact Store.Kind.completed_changed _ _ _
  have hplaced : p.RowsPlaced e'.store :=
    he.placed.changed hch fun hf => (harrives (hflow.symm.trans hf)).1
  exact ⟨⟨hw.ready, he.inForce.sameFlows hw.flows, hw.registry ▸ he.agrees, hplaced⟩, hwalks,
    hc.wrote hw hwalks fun hf => (harrives hf).2⟩

private theorem Rules.files {graph : Graph} {parent : Option String} (he : p.Rules e)
    (hg : p.Carries graph) (hst : Started graph parent e c e') :
    p.Rules e' ∧ p.Walks none e.store e'.store ∧ p.Tracks e'.store c := by
  obtain ⟨i, hid, hn, hf⟩ := hst.filed
  obtain ⟨entry, hentry, hnode⟩ := hst.node
  have hindex (hflow : c.flow = p.flow) : graph.index = p.index := hg (hst.flow.symm.trans hflow)
  have hfirst (hflow : c.flow = p.flow) : Authored.entry p.document = c.node ∧ p.Has c.node := by
    rw [Graph.entry?, hindex hflow] at hentry
    rw [hnode]
    exact entry_of_head hentry
  have hkept (k : Store.Kind) (hflow : c.flow = p.flow) : (k.filed c).node = c.node :=
    (hfirst hflow).2.node_eq k
  have hborn (hflow : c.flow = p.flow) : p.Born (e.store.kind.filed c) := by
    refine ⟨(hkept _ hflow).trans (hfirst hflow).1.symm, ?_⟩
    change c.completed.map _ = none
    rw [hst.completed]
    rfl
  have hplaced : p.RowsPlaced e'.store := by
    intro j r hr hflow
    by_cases hj : j = i
    · rw [hj, hf.row] at hr
      cases hr
      rw [hkept _ hflow]
      exact (hfirst hflow).2
    · rw [hf.others j hj] at hr
      exact he.placed j r hr hflow
  refine ⟨⟨hst.ready, he.inForce.sameFlows hst.flows, hst.registry ▸ he.agrees, hplaced⟩,
    .of_filed hf hn hborn, ⟨i, _, hid, hf.row, rfl⟩, (hf.current hid).coherent,
    fun hflow => (hfirst hflow).2, ?_⟩
  intro index hflow hi
  rw [hst.index] at hi
  cases hi
  exact hindex hflow

private theorem Rules.finds (he : p.Rules e) (flow : Identifier) :
    Ensures (Engine.fetch flow) e (fun found e' => p.Rules e' ∧ p.Finds flow found)
      (fun _ e' => p.Rules e') := by
  refine ((fetch_finds he.ready.alone he.inForce he.agrees flow).and
    ((Engine.fetch_yields flow).quietly e he.ready.alone)).mono ?_ ?_
  · rintro found e' ⟨⟨ha, hfound⟩, hq⟩
    exact ⟨⟨he.ready.quiet hq, hq.store ▸ he.inForce, ha, hq.store ▸ he.placed⟩, hfound⟩
  · rintro _ e' ⟨ha, hq⟩
    exact ⟨he.ready.quiet hq, hq.store ▸ he.inForce, ha, hq.store ▸ he.placed⟩

private theorem Tracks.unharmed (hc : p.Tracks s c) (hd : Dangles c) (node : Json) :
    p.Unharmed s (.dangling c.id node) := by
  rintro _ _ ⟨⟩
  obtain ⟨j, r, hid, hr, hflow⟩ := hc.row
  refine ⟨j, r, hid, hr, ?_⟩
  rw [hflow]
  exact hc.flow_ne_of_dangles hd

end Rules

/-- The discipline of walks: as long as the publication is in force, the rows of the flow walk. -/
def walking (p : Publication) : Discipline where
  Holds := p.Rules
  Keeps := p.Tracks
  Grows := p.Walks
  Finds := p.Finds
  Knows := p.Carries
  Parents _ _ := True
  Fails := p.Unharmed
  ready h := h.ready
  same h hr hs hg := ⟨hr, hs ▸ h.inForce, hg ▸ h.agrees, hs ▸ h.placed⟩
  refl := .refl
  trans h h' := h.trans h'
  keeps hw hc := hc.walks hw
  named hc := by
    obtain ⟨i, _, hid, _⟩ := hc.row
    exact ⟨i, hid⟩
  orphan _ := trivial
  parent _ := trivial
  fails h i node hf := absurd hf (h i node)
  finds flow h := h.finds flow
  knows h := h.carries
  reads h hc := tracks_of_copied h.ready.sound h.placed hc
  binds hc hf := hc.bound fun hflow => hf.index (by rw [hflow])
  settles h hc hd hw := h.settles hc hd hw
  advances h hc hid he hl ha hw := h.advances hc hid he hl ha hw
  dangles hc hd := hc.unharmed hd
  files h hg _ hst := h.files hg hst

end Flow.Publication
end DurableFlow
