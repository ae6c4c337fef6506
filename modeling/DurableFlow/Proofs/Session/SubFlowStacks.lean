import DurableFlow.Proofs.Engine.AnsweredSteps
import DurableFlow.Proofs.Session.ConfinedRequests
import DurableFlow.Proofs.Session.EnteredSubFlows

/-! Sub-flows as a stack. A parent stands where it was entered from while requests keep to the family of
its child, so exits from the innermost child outward hand the parents back in reverse order. -/
namespace DurableFlow.Session
open DurableFlow.Action (Ensures)
open Engine (Below ChildEntered Expectable LoadsAs Prepared Provides CanWrite freshId parentOf)
open Store (Filed KeptOutside Lives)
variable {s s' s₀ : Session} {t t' : Store} {e : Engine} {q : Request} {top p b : String}
  {r r' c : Context}

/-! ## Frames -/

/-- A child that was entered, its parent, and the row of the parent at that time. -/
structure Frame where
  child : String
  parent : String
  row : Context

variable {f : Frame} {frames : List Frame}

abbrev Parks (d : Store.Deed) : Prop := ∃ wakeup, d = .park wakeup

structure Stands (t : Store) (f : Frame) : Prop where
  parent : parentOf t f.child = some f.parent
  isOpen : f.row.completed = none
  row : ∃ r, t.row? f.parent = some r ∧ Lives t.kind Parks f.row r

def Stacked (t : Store) : String → List Frame → Prop
  | _, [] => True
  | top, f :: frames => f.child = top ∧ Stands t f ∧ Stacked t f.parent frames

structure SameBut (r c : Context) : Prop where
  completed : c.completed = r.completed
  node : c.node = r.node
  results : c.results = r.results
  flow : c.flow = r.flow
  parent : c.parent = r.parent

private theorem sameBut_of_lives {k : Store.Kind} (h : Lives k Parks r r') : SameBut r r' := by
  induction h with
  | refl => exact ⟨rfl, rfl, rfl, rfl, rfl⟩
  | step h ho hd ih =>
    obtain ⟨wakeup, rfl⟩ := hd
    exact ⟨ih.completed, ih.node, ih.results, ih.flow, ih.parent⟩

private theorem Stacked.above (h : Stacked t top frames) (hf : f ∈ frames) :
    ∃ k, 0 < k ∧ Below t k f.parent top := by
  induction frames generalizing top with
  | nil => cases hf
  | cons g rest ih =>
    obtain ⟨rfl, hg, hrest⟩ := h
    have hone : Below t 1 g.parent g.child := ⟨g.child, hg.parent, rfl⟩
    rcases List.mem_cons.mp hf with rfl | hf
    · exact ⟨1, Nat.one_pos, hone⟩
    · obtain ⟨k, hk, hb⟩ := ih hrest hf
      exact ⟨k + 1, Nat.succ_pos k, hb.trans hone⟩

private theorem Stacked.kept (h : Stacked t top frames) {T : String → Prop}
    (hk : KeptOutside T t t') (hl : RowsLast t t') (hT : ∀ f ∈ frames, ¬ T f.parent) :
    Stacked t' top frames := by
  induction frames generalizing top with
  | nil => trivial
  | cons f rest ih =>
    obtain ⟨rfl, ⟨hparent, hopen, r, hr, hlives⟩, hrest⟩ := h
    obtain ⟨r', hr', hlives'⟩ := hk.rows f.parent r (hT f List.mem_cons_self) hr
    refine ⟨rfl, ⟨hl.parentOf hparent, hopen, r', hr', ?_⟩,
      ih hrest fun f hf => hT f (List.mem_cons_of_mem _ hf)⟩
    rw [hk.kind]
    exact hlives.trans (hlives'.mono fun _ hd => ⟨none, hd⟩)

/-! ## Within a family -/

structure Within (top : String) (s : Session) (q : Request) : Prop where
  proper : HasStoredParent s q
  family : ∀ j, q.touches s j → ∃ k, Below s.engine.store k top j

private theorem within_stacked (hs : WellKept s) (hq : Within top s q)
    (h : Stacked s.engine.store top frames) : Stacked (q.perform s).2.engine.store top frames := by
  refine h.kept (perform_kept hs.rooted q) (hs.perform hq.proper).2 ?_
  intro f hf ht
  obtain ⟨k, hk, hb⟩ := h.above hf
  obtain ⟨l, hl⟩ := hq.family f.parent ht
  exact hs.rooted.holds.2.acyclic (k + l) f.parent (Nat.add_pos_left hk l) (hb.trans hl)

/-! ## Entries -/

def Request.entersFrom (s : Session) (p : String) : Request → Prop
  | .call (.through copy (.enter _ _)) => ∃ c, s.copies[copy]? = some c ∧ c.id = some p
  | .enterById id _ _ => id = p
  | _ => False

structure Enters (p b : String) (s : Session) (q : Request) : Prop where
  enters : q.entersFrom s p
  succeeds : (q.perform s).1 = .ok ()
  handed : ∃ child, (q.perform s).2.copies.getLast? = some child ∧ child.id = some b

private structure Pushes (p b : String) (t t' : Store) : Prop where
  parent : parentOf t' b = some p
  parked : ∀ r, t.row? p = some r → r.completed = none →
    ∃ r', t'.row? p = some r' ∧ Lives t.kind Parks r r'
  others : ∀ j r, j ≠ p → t.row? j = some r → t'.row? j = some r
  kind : t'.kind = t.kind

private theorem pushes_of_entered {c child : Context} {flow : Identifier} {wakeup : Option Moment}
    {g : Holding Engine Context} (he : e.Ready) (hp : c.id = some p) (hrow : e.store.row? p = some r)
    (h : ChildEntered e c flow wakeup child g) (hb : child.id = some b) :
    Pushes p b e.store g.state.store := by
  obtain ⟨i, t, hi, hn, hprepared, hf⟩ := h.filed
  cases hb.symm.trans hi
  have hpb : p ≠ b := by
    rintro rfl
    rw [hn] at hrow
    cases hrow
  have hchild : child.parent = some p := h.parent.trans hp
  have hparent : parentOf g.state.store b = some p := by
    simp only [parentOf, hf.row, Option.bind_some, Store.Kind.filed, hchild]
    have hne := he.id_ne_empty hrow
    split <;> simp [hne]
  cases wakeup with
  | none =>
    obtain ⟨rfl, -⟩ := hprepared
    refine ⟨hparent, fun r hr _ => ⟨r, (hf.others p hpb).trans hr, .refl⟩, ?_, hf.kind⟩
    intro j r hj hr
    have hjb : j ≠ b := by
      rintro rfl
      rw [hn] at hr
      cases hr
    exact (hf.others j hjb).trans hr
  | some w =>
    obtain ⟨x, rx, time, updated, hx, -, hch, -⟩ := hprepared
    cases hp.symm.trans hx
    refine ⟨hparent, ?_, ?_, hf.kind.trans hch.kind⟩
    · intro r hr ho
      obtain rfl : rx = r := Option.some.inj (hch.found.symm.trans hr)
      have hstep : Lives e.store.kind Parks rx
          (e.store.kind.changed ((Store.Deed.park (some w)).changes rx.results) time rx) :=
        .step .refl ho ⟨some w, rfl⟩
      exact ⟨_, (hf.others p hpb).trans hch.row, hstep⟩
    · intro j r hj hr
      have hjb : j ≠ b := by
        rintro rfl
        rw [hn] at hr
        cases hr
      exact (hf.others j hjb).trans ((hch.others j hj).trans hr)

private theorem enter_pushes (he : e.Ready) (hr : e.store.row? p = some r) (hid : c.id = some p)
    (flow : Identifier) (wakeup : Option Moment) :
    Ensures (Engine.enterSubFlow flow wakeup) ⟨e, c⟩
      (fun child g => ∀ b, child.id = some b → Pushes p b e.store g.state.store)
      (fun _ _ => True) :=
  (Engine.enterSubFlow_outcome he.alone he.next_free flow wakeup).mono
    (fun _ _ h _ hb => pushes_of_entered he hid hr h hb) (fun _ _ _ => trivial)

private def HandsChild (p : String) (t : Store) (handed : List Context) (t' : Store) : Prop :=
  ∃ x, handed = [x] ∧ ∀ b, x.id = some b → Pushes p b t t'

private theorem enter_hands (he : e.Ready) (hr : e.store.row? p = some r) (hid : c.id = some p)
    (flow : Identifier) (wakeup : Option Moment) :
    Ensures (Use.enter flow wakeup).act ⟨e, c⟩
      (fun handed g => HandsChild p e.store handed g.state.store) (fun _ _ => True) := by
  apply Ensures.bind
  refine (enter_pushes he hr hid flow wakeup).mono ?_ fun _ _ h => h
  intro x g h
  exact Ensures.pure ⟨x, rfl, h⟩

private theorem enterById_hands (he : e.Ready) (hr : e.store.row? p = some r) (flow : Identifier)
    (wakeup : Option Moment) :
    Ensures (do return [← Engine.enterById (some p) flow wakeup] : Run (List Context)) e
      (fun handed e' => HandsChild p e.store handed e'.store) (fun _ _ => True) := by
  apply Ensures.bind
  apply Ensures.bind
  refine (Engine.load_ensures he p).mono ?_ fun _ _ _ => trivial
  rintro c e₁ ⟨he₁, hs₁, -, hid⟩
  apply Ensures.bind
  apply Ensures.holding
  refine (enter_pushes he₁ (hs₁ ▸ hr) hid flow wakeup).mono ?_ fun _ _ h => h
  intro x g h
  rw [hs₁] at h
  exact Ensures.pure ⟨x, rfl, h⟩

private theorem enters_pushes (hs : WellKept s) (hq : Enters p b s q)
    (hr : s.engine.store.row? p = some r) :
    Pushes p b s.engine.store (q.perform s).2.engine.store := by
  have he := hs.rooted.holds.1
  have hlast {copies : List Context} {x y : Context} (h : (copies ++ [x]).getLast? = some y) :
      x = y := by simpa using h
  obtain ⟨henters, hok, child, hchild, hb⟩ := hq
  cases q with
  | call call =>
    cases call with
    | through copy use =>
      cases use with
      | enter flow wakeup =>
        obtain ⟨c, hc, hid⟩ := henters
        simp only [Request.perform, Call.perform] at hok hchild ⊢
        cases ho : (Use.enter flow wakeup).act ⟨s.engine, c⟩ with
        | ok handed g =>
          rw [through_of_ok hc ho] at hchild ⊢
          obtain ⟨x, rfl, h⟩ := (enter_hands he hr hid flow wakeup).of_eq_ok ho
          cases hlast hchild
          exact h b hb
        | error f g =>
          rw [through_of_error hc ho] at hok
          cases hok
      | _ => cases henters
    | _ => cases henters
  | enterById i flow wakeup =>
    obtain rfl : i = p := henters
    simp only [Request.perform, Session.beside] at hok hchild ⊢
    cases ho : (do return [← Engine.enterById (some i) flow wakeup] : Run (List Context)) s.engine with
    | ok handed e' =>
      rw [ho] at hchild
      obtain ⟨x, rfl, h⟩ := (enterById_hands he hr flow wakeup).of_eq_ok ho
      cases hlast hchild
      exact h b hb
    | error f e' =>
      rw [ho] at hok
      cases hok
  | _ => cases henters

private theorem proper_of_entersFrom (h : q.entersFrom s p) : HasStoredParent s q := by
  cases q with
  | call call =>
    cases call with
    | through _ _ => trivial
    | _ => cases h
  | enterById _ _ _ => trivial
  | _ => cases h

private theorem enters_stacked (hs : WellKept s) (hq : Enters top b s q)
    (hr : s.engine.store.row? top = some r) (ho : r.completed = none)
    (h : Stacked s.engine.store top frames) :
    Stacked (q.perform s).2.engine.store b (⟨b, top, r⟩ :: frames) := by
  have hpush := enters_pushes hs hq hr
  obtain ⟨r', hr', hlives⟩ := hpush.parked r hr ho
  have hstands : Stands (q.perform s).2.engine.store ⟨b, top, r⟩ :=
    ⟨hpush.parent, ho, r', hr', hpush.kind ▸ hlives⟩
  -- the parents further out are not the one that is entered from
  have hkept : KeptOutside (· = top) s.engine.store (q.perform s).2.engine.store :=
    ⟨hpush.kind, fun j x hj hx => ⟨x, hpush.others j x hj hx, .refl⟩⟩
  refine ⟨rfl, hstands, h.kept hkept (hs.perform (proper_of_entersFrom hq.enters)).2 ?_⟩
  rintro f hf hsame
  obtain ⟨k, hk, hb⟩ := h.above hf
  rw [hsame] at hb
  exact hs.rooted.holds.2.acyclic k top hk hb

/-- A way down: entries, each from the child that was entered last, and between them requests within the
family of that child. Entries that have been left again are such requests. -/
inductive Descent (s₀ : Session) : String → List Frame → Session → Prop where
  | root (top : String) : Descent s₀ top [] s₀
  | enter {top b : String} {frames : List Frame} {s : Session} {q : Request} {r : Context}
      (before : Descent s₀ top frames s) (entry : Enters top b s q)
      (found : s.engine.store.row? top = some r) (isOpen : r.completed = none) :
      Descent s₀ b (⟨b, top, r⟩ :: frames) (q.perform s).2
  | within {top : String} {frames : List Frame} {s : Session} {q : Request}
      (before : Descent s₀ top frames s) (request : Within top s q) :
      Descent s₀ top frames (q.perform s).2

private theorem Descent.stacked (h : Descent s₀ top frames s) (hs : WellKept s₀) :
    WellKept s ∧ Stacked s.engine.store top frames := by
  induction h with
  | root top => exact ⟨hs, trivial⟩
  | enter _ entry found isOpen ih =>
    exact ⟨(ih.1.perform (proper_of_entersFrom entry.enters)).1,
      enters_stacked ih.1 entry found isOpen ih.2⟩
  | within _ request ih =>
    exact ⟨(ih.1.perform request.proper).1, within_stacked ih.1 request ih.2⟩

/-! ## Exits -/

/-- A context loads, its flow with it, and nothing hinders the engine from writing to it. -/
structure Serves (e : Engine) (p : String) : Prop where
  canWrite : CanWrite e
  loads : ∃ c e', Engine.load (some p) e = .ok c e'
  expectable : ∀ r, e.store.row? p = some r → Expectable e.store r

abbrev exitThrough (copy : Nat) : Request := .call (.through copy .exit)

/-- A context is open and does not wait, and says otherwise what a row said. -/
structure ActiveAs (r c : Context) : Prop where
  status : c.status = .active
  node : c.node = r.node
  results : c.results = r.results
  flow : c.flow = r.flow
  parent : c.parent = r.parent

/-- An exit hands back the parent of a frame as it was when the child was entered, active and bound to
its flow, and leaves it so in the store with the child completed. -/
structure Returned (f : Frame) (stop : Session × Nat) : Prop where
  succeeds : ((exitThrough stop.2).perform stop.1).1 = .ok ()
  handed : ∃ parent, ((exitThrough stop.2).perform stop.1).2.copies.getLast? = some parent ∧
    parent.id = some f.parent ∧ ActiveAs f.row parent ∧
    ∃ graph, Provides stop.1.engine f.row.flow graph ∧ parent.index = some graph.index
  stored : ∃ r, ((exitThrough stop.2).perform stop.1).2.engine.store.row? f.parent = some r ∧
    ActiveAs f.row r
  closed : ∃ r, ((exitThrough stop.2).perform stop.1).2.engine.store.row? f.child = some r ∧
    r.completed ≠ none

private theorem activeAs_of_sameBut (h : SameBut r c) (ho : r.completed = none)
    (hw : c.wakeup = none) : ActiveAs r c := by
  refine ⟨?_, h.node, h.results, h.flow, h.parent⟩
  simp [Context.status, h.completed, ho, hw]

private theorem parent_of_copy (hs : WellKept s) (hf : Stands s.engine.store f) {copy : Nat}
    (hc : s.copies[copy]? = some c) (hid : c.id = some f.child) : c.parent = some f.parent := by
  obtain ⟨i, r, hi, hr, hnames, -⟩ := hs.heeding.keeps c (List.mem_of_getElem? hc)
  cases hid.symm.trans hi
  apply hnames
  have hparent := hf.parent
  rw [parentOf, hr] at hparent
  exact hparent

private theorem exit_returned (hs : WellKept s) (hf : Stands s.engine.store f)
    {copy : Nat} (hc : s.copies[copy]? = some c) (hid : c.id = some f.child)
    (hserves : Serves s.engine f.parent) : Returned f (s, copy) := by
  obtain ⟨he, hroot⟩ := hs.rooted.holds
  have hcparent := parent_of_copy hs hf hc hid
  obtain ⟨hparent, hopen, rp, hrp, hlives⟩ := hf
  have hsame := sameBut_of_lives hlives
  have hrpOpen : rp.completed = none := hsame.completed.trans hopen
  obtain ⟨i, r, hi, hr, -, hclosed⟩ := hs.heeding.keeps c (List.mem_of_getElem? hc)
  cases hid.symm.trans hi
  have hne : f.parent ≠ f.child := by
    intro heq
    have hone : Below s.engine.store 1 f.parent f.child := ⟨f.child, hparent, rfl⟩
    rw [heq] at hone
    exact hroot.acyclic 1 f.child Nat.one_pos hone
  obtain ⟨d, hload⟩ : ∃ d, LoadsAs s.engine f.parent d := by
    obtain ⟨d, e', hd⟩ := hserves.loads
    have hloads := Engine.load_loadsAs he.alone he.sound hserves.canWrite.unfailing f.parent
    exact ⟨d, (hloads.of_eq_ok hd).1⟩
  obtain ⟨rp', graph, hrp', hgraph, hd, hdid⟩ := hload.row he.sound
  cases hrp.symm.trans hrp'
  have hexit := Engine.exitSubFlow_returns he hserves.canWrite hid hr hclosed hcparent hne hrp
    hrpOpen (hserves.expectable rp hrp) hload
  have hact : Ensures Use.exit.act ⟨s.engine, c⟩ (fun handed g => ∃ parent, handed = [parent] ∧
      Engine.HandedBack f.parent rp d parent g.state.store ∧
      ∃ r', g.state.store.row? f.child = some r' ∧ r'.completed ≠ none) (fun _ _ => False) := by
    apply Ensures.bind
    refine hexit.mono ?_ fun _ _ h => h
    rintro parent g ⟨hback, hdone⟩
    exact Ensures.pure ⟨parent, rfl, hback, hdone⟩
  cases ho : Use.exit.act ⟨s.engine, c⟩ with
  | error x g => exact (hact.of_eq_error ho).elim
  | ok handed g =>
    obtain ⟨parent, rfl, ⟨⟨version, updated, rfl⟩, r', hr', hwake, hlives'⟩, hdone⟩ := hact.of_eq_ok ho
    have hperform : (exitThrough copy).perform s =
        (.ok (), ⟨g.state, s.copies.set copy g.held ++ [{ d with wakeup := none, version, updated }]⟩) :=
      through_of_ok hc ho
    have hstored : SameBut rp r' := sameBut_of_lives (hlives'.mono fun _ hd => ⟨none, hd⟩)
    have hflow : rp.flow = f.row.flow := hsame.flow
    constructor
    · rw [hperform]
    · rw [hperform]
      refine ⟨_, List.getLast?_concat, hdid, ?_, graph, hflow ▸ hgraph, ?_⟩
      · rw [hd]
        exact activeAs_of_sameBut ⟨hsame.completed, hsame.node, hsame.results, hsame.flow, hsame.parent⟩
          hopen rfl
      · rw [hd]
    · rw [hperform]
      refine ⟨r', hr', activeAs_of_sameBut ?_ hopen hwake⟩
      exact ⟨hstored.completed.trans hsame.completed, hstored.node.trans hsame.node,
        hstored.results.trans hsame.results, hstored.flow.trans hsame.flow,
        hstored.parent.trans hsame.parent⟩
    · rw [hperform]
      exact hdone

/-! ## The way back -/

structure Ascent where
  before : List Request
  copy : Nat

def Ascent.stop (s : Session) (x : Ascent) : Session := s.run x.before

def Ascent.next (s : Session) (x : Ascent) : Session := ((exitThrough x.copy).perform (x.stop s)).2

def unwind (s : Session) (ascents : List Ascent) : Session := ascents.foldl Ascent.next s

def exits : Session → List Ascent → List (Session × Nat)
  | _, [] => []
  | s, x :: ascents => (x.stop s, x.copy) :: exits (x.next s) ascents

/-- One ascent for each frame, from the innermost outward. The requests before an exit keep to the family
of the child, the exit is through a copy of the child, and the parent loads. -/
def Unwinds : Session → List Frame → List Ascent → Prop
  | _, [], [] => True
  | s, f :: frames, x :: ascents => Along (Within f.child) s x.before ∧
      (∃ c, (x.stop s).copies[x.copy]? = some c ∧ c.id = some f.child) ∧
      Serves (x.stop s).engine f.parent ∧ Unwinds (x.next s) frames ascents
  | _, _, _ => False

private theorem within_run (hs : WellKept s) (h : Stacked s.engine.store top frames)
    {requests : List Request} (hq : Along (Within top) s requests) :
    WellKept (s.run requests) ∧ Stacked (s.run requests).engine.store top frames ∧
      RowsLast s.engine.store (s.run requests).engine.store := by
  refine hq.run_keeps (I := fun u => WellKept u ∧ Stacked u.engine.store top frames ∧
    RowsLast s.engine.store u.engine.store) ?_ ⟨hs, h, fun _ r hr => ⟨r, hr, rfl, id⟩⟩
  rintro u q ⟨hu, hstack, hlast⟩ hq
  obtain ⟨hu', hlast'⟩ := hu.perform hq.proper
  exact ⟨hu', within_stacked hu hq hstack, hlast.trans hlast'⟩

private theorem exit_within (hs : WellKept s) (hf : Stands s.engine.store f) {copy : Nat}
    (hc : s.copies[copy]? = some c) (hid : c.id = some f.child) :
    Within f.parent s (exitThrough copy) := by
  refine ⟨trivial, ?_⟩
  rintro j ⟨c', hc', hj⟩
  cases hc.symm.trans hc'
  rcases hj with hj | hj
  · cases hid.symm.trans hj
    exact ⟨1, f.child, hf.parent, rfl⟩
  · cases (parent_of_copy hs hf hc hid).symm.trans hj
    exact ⟨0, rfl⟩

/-- What the way back comes to: each exit returns, and of the contexts on the way the root alone is open
in the end. -/
structure Unwound (s : Session) (frames : List Frame) (ascents : List Ascent) : Prop where
  returned : List.Forall₂ Returned frames (exits s ascents)
  closed : ∀ f ∈ frames, ∃ r, (unwind s ascents).engine.store.row? f.child = some r ∧
    r.completed ≠ none
  isOpen : ∀ f, frames.getLast? = some f → ∃ r,
    (unwind s ascents).engine.store.row? f.parent = some r ∧ r.completed = none

private theorem Returned.isOpen {stop : Session × Nat} (h : Returned f stop) : ∃ r,
    ((exitThrough stop.2).perform stop.1).2.engine.store.row? f.parent = some r ∧
      r.completed = none := by
  obtain ⟨r, hr, hactive⟩ := h.stored
  refine ⟨r, hr, ?_⟩
  have hstatus := hactive.status
  cases hc : r.completed with
  | none => rfl
  | some t => simp [Context.status, hc] at hstatus

private theorem unwinds_unwound (hs : WellKept s) (h : Stacked s.engine.store top frames)
    {ascents : List Ascent} (hu : Unwinds s frames ascents) :
    Unwound s frames ascents ∧ RowsLast s.engine.store (unwind s ascents).engine.store := by
  induction frames generalizing s top ascents with
  | nil =>
    cases ascents with
    | nil =>
      refine ⟨⟨.nil, ?_, ?_⟩, fun _ r hr => ⟨r, hr, rfl, id⟩⟩
      · intro f hf
        cases hf
      · intro f hf
        cases hf
    | cons x ascents => cases hu
  | cons f frames ih =>
    cases ascents with
    | nil => cases hu
    | cons x ascents =>
      obtain ⟨hbefore, ⟨c, hc, hid⟩, hserves, hrest⟩ := hu
      obtain ⟨rfl, -⟩ := id h
      obtain ⟨hstop, ⟨-, hstands, houter⟩, hlast⟩ := within_run hs h hbefore
      have hreturned : Returned f (x.stop s, x.copy) := exit_returned hstop hstands hc hid hserves
      have hwithin := exit_within hstop hstands hc hid
      obtain ⟨hnext, hlast'⟩ := hstop.perform hwithin.proper
      obtain ⟨hunwound, hlast''⟩ := ih hnext (within_stacked hstop hwithin houter) hrest
      refine ⟨⟨.cons hreturned hunwound.returned, ?_, ?_⟩, (hlast.trans hlast').trans hlast''⟩
      · intro g hg
        rcases List.mem_cons.mp hg with rfl | hg
        · obtain ⟨r, hr, hdone⟩ := hreturned.closed
          obtain ⟨r', hr', -, hkept⟩ := hlast'' _ r hr
          exact ⟨r', hr', hkept hdone⟩
        · exact hunwound.closed g hg
      · intro g hg
        cases frames with
        | nil =>
          cases hg
          cases ascents with
          | nil => exact hreturned.isOpen
          | cons y ascents => cases hrest
        | cons g' rest => exact hunwound.isOpen g (by simpa [List.getLast?_cons_cons] using hg)

/-- A stack of sub-flows, however deep: a way down from any context, each child entered from the open one
before it while requests keep to the family of the last child, and a way back with one exit for each child.
Every exit returns. It hands back the parent where it stood when the child was entered, active and bound
to its flow, with the child completed, whether the child was still open or not; and in the end, of the
contexts on the way, the root alone is open. -/
theorem sub_flows_unwind (hs : s.Fresh) {before : List Request} (hb : Along HasStoredParent s before)
    (hd : Descent (s.run before) top frames s') {ascents : List Ascent}
    (hu : Unwinds s' frames ascents) : Unwound s' frames ascents := by
  obtain ⟨horderly, hstacked⟩ := hd.stacked (hs.orderly.run hb)
  exact (unwinds_unwound horderly hstacked hu).1

/-! ## A stack of two -/

private theorem exists_copy {copy : Nat} {i : String}
    (h : (s.copies.map Context.id)[copy]? = some (some i)) :
    ∃ c, s.copies[copy]? = some c ∧ c.id = some i := by
  rw [List.getElem?_map] at h
  exact Option.map_eq_some_iff.mp h

private theorem exists_last {i : String} (h : (s.copies.map Context.id).getLast? = some (some i)) :
    ∃ c, s.copies.getLast? = some c ∧ c.id = some i := by
  rw [List.getLast?_map] at h
  exact Option.map_eq_some_iff.mp h

private theorem exists_open {i : String}
    (h : (s.engine.store.row? i).map Context.completed = some none) :
    ∃ r, s.engine.store.row? i = some r ∧ r.completed = none := Option.map_eq_some_iff.mp h

private theorem serves_in_memory (hfailing : ∀ op, e.faults.failing op = [])
    (hfaults : (e.faults.lost, e.faults.broken, e.faults.racing, e.faults.trigger, e.faults.script) =
      ([], [], false, none, none))
    (hstore : e.store.kind = .memory ∧ e.store.isConnected = true)
    (hdated : (Moment.utc e.clock).dated.isOk = true)
    (hload : (match Engine.load (some p) e with
      | .ok _ _ => true
      | .error _ _ => false) = true) : Serves e p := by
  refine ⟨⟨?_, hstore.2, ?_⟩, ?_, ?_⟩
  · have hnone : e.faults.failing = fun _ => [] := funext hfailing
    cases hf : e.faults
    rw [hf] at hnone hfaults
    cases hnone
    cases hfaults
    rfl
  · cases hd : (Moment.utc e.clock).dated with
    | ok time => exact ⟨time, hd⟩
    | error f =>
      rw [hd] at hdated
      cases hdated
  · split at hload
    · rename_i c e' ho
      exact ⟨c, e', ho⟩
    · cases hload
  · intro r _ hk
    rw [hstore.1] at hk
    cases hk

private theorem unwinds_at_once {copy : Nat} {ascents : List Ascent}
    (hc : ∃ c, s.copies[copy]? = some c ∧ c.id = some f.child) (hs : Serves s.engine f.parent)
    (h : Unwinds ((exitThrough copy).perform s).2 frames ascents) :
    Unwinds s (f :: frames) (⟨[], copy⟩ :: ascents) := ⟨trivial, hc, hs, h⟩

/-- A child is entered while its parent waits, and a tick wakes the parent. The child enters another,
which completes by itself; then both are left, the child while it is open. -/
theorem sub_flows_unwind_nested :
    let s := inMemory.run [.call (.meanwhile knowing fun _ => ⟨rfl, rfl, rfl, rfl⟩),
      .call (.start oneNode (.int 7) none)]
    let ascents : List Ascent := [⟨[], 3⟩, ⟨[], 1⟩]
    ∃ frames s', Descent s (freshId 3) frames s' ∧
      frames.map (fun f => (f.child, f.parent)) =
        [(freshId 3, freshId 2), (freshId 2, freshId 1)] ∧
      Unwinds s' frames ascents ∧ Unwound s' frames ascents := by
  intro s ascents
  have hproper : Along HasStoredParent inMemory [.call (.meanwhile knowing fun _ => ⟨rfl, rfl, rfl, rfl⟩),
      .call (.start oneNode (.int 7) none)] := by
    refine ⟨?_, ⟨trivial, fun p hp => by cases hp⟩, trivial⟩
    rintro ⟨hr, hroot⟩
    exact ⟨hr.quiet ⟨rfl, rfl, rfl, rfl⟩, hroot⟩
  let wakeup := Moment.utc 9000000
  let enterChild : Request := .call (.through 0 (.enter (1 : Int) (some wakeup)))
  let wakeParent : Request := .call (.tick (some wakeup) (.int 10))
  let enterSecond : Request := .enterById (freshId 2) (1 : Int) none
  let finishSecond : Request := .call (.through 3 .complete)
  let s₁ := (enterChild.perform s).2
  let s₂ := (wakeParent.perform s₁).2
  let s₃ := (enterSecond.perform s₂).2
  let s₄ := (finishSecond.perform s₃).2
  let s₅ := ((exitThrough 3).perform s₄).2
  obtain ⟨r₁, hr₁, ho₁⟩ : ∃ r, s.engine.store.row? (freshId 1) = some r ∧ r.completed = none :=
    exists_open (by decide +kernel)
  obtain ⟨r₂, hr₂, ho₂⟩ : ∃ r, s₂.engine.store.row? (freshId 2) = some r ∧ r.completed = none :=
    exists_open (by decide +kernel)
  have hfirst : Enters (freshId 1) (freshId 2) s enterChild :=
    ⟨exists_copy (by decide +kernel), by decide +kernel, exists_last (by decide +kernel)⟩
  have hwake : Within (freshId 2) s₁ wakeParent := ⟨trivial, fun j hj => hj.elim⟩
  have hsecond : Enters (freshId 2) (freshId 3) s₂ enterSecond :=
    ⟨rfl, by decide +kernel, exists_last (by decide +kernel)⟩
  have hfinish : Within (freshId 3) s₃ finishSecond := by
    refine ⟨trivial, ?_⟩
    rintro j ⟨c, hc, hj⟩
    obtain ⟨c', hc', hid⟩ : ∃ c, s₃.copies[3]? = some c ∧ c.id = some (freshId 3) :=
      exists_copy (by decide +kernel)
    cases hc.symm.trans hc'
    cases hj.symm.trans hid
    exact ⟨0, rfl⟩
  have hdown : Descent s (freshId 3) [⟨freshId 3, freshId 2, r₂⟩, ⟨freshId 2, freshId 1, r₁⟩] s₄ :=
    .within (.enter (.within (.enter (.root _) hfirst hr₁ ho₁) hwake) hsecond hr₂ ho₂) hfinish
  have hthird : ∃ c, s₄.copies[3]? = some c ∧ c.id = some (freshId 3) :=
    exists_copy (by decide +kernel)
  have hchild : ∃ c, s₅.copies[1]? = some c ∧ c.id = some (freshId 2) :=
    exists_copy (by decide +kernel)
  have hserves₄ : Serves s₄.engine (freshId 2) := by
    apply serves_in_memory
    · intro op
      cases op <;> decide +kernel
    all_goals decide +kernel
  have hserves₅ : Serves s₅.engine (freshId 1) := by
    apply serves_in_memory
    · intro op
      cases op <;> decide +kernel
    all_goals decide +kernel
  have hback : Unwinds s₄ [⟨freshId 3, freshId 2, r₂⟩, ⟨freshId 2, freshId 1, r₁⟩] ascents :=
    unwinds_at_once hthird hserves₄ (unwinds_at_once hchild hserves₅ trivial)
  exact ⟨_, s₄, hdown, rfl, hback, sub_flows_unwind fresh_inMemory hproper hdown hback⟩

end DurableFlow.Session
