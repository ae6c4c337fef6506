import DurableFlow.Proofs.Engine.AnsweredSteps
import DurableFlow.Proofs.Engine.InputCourses

/-! Inputs that race for a row. A try takes its course or loses a race on the way, and then the row that
it leaves has the course that it had before. -/
namespace DurableFlow

namespace Store

def Roomy (k : Kind) (r : Context) (writes : Nat) : Prop :=
  k = .rows → -Rows.largest - 1 ≤ r.version ∧ r.version + writes ≤ Rows.largest

theorem Roomy.mono {k : Kind} {r r' : Context} {m n : Nat} (h : Roomy k r n)
    (hr : r.version ≤ r'.version) (hn : r'.version + m ≤ r.version + n) : Roomy k r' m := by
  intro hk
  obtain ⟨hlow, hhigh⟩ := h hk
  omega

theorem Roomy.expectable {s : Store} {r : Context} {n : Nat} (h : Roomy s.kind r n) :
    Engine.Expectable s r := by
  intro hk
  obtain ⟨hlow, hhigh⟩ := h hk
  have hmax : r.version ≤ Rows.largest := by omega
  simp only [Rows.checkExpected, Rows.checkSize, hlow, hmax, and_self, if_pos]

end Store

namespace Engine
open DurableFlow.Action (Ensures)
open DurableFlow.Flow (NodeIndex)
open Store (Changed Kind Roomy)
variable {e e' : Engine} {i : String} {index : NodeIndex} {lost rest : List Bool} {m n : Nat}
  {r r' c : Context} {choice given : Json} {changes : List Context.Change}

/-! ## Engines that race for a row -/

structure Racing (i : String) (index : NodeIndex) (lost : List Bool) (r : Context) (e : Engine) :
    Prop where
  ready : e.Ready
  contested : Contested lost e
  row : e.store.row? i = some r
  reads : ∃ d, e.store.kind.read r = .ok d
  provides : ∃ graph, Provides e r.flow graph ∧ graph.index = index

structure Steady (e e' : Engine) : Prop where
  kind : e'.store.kind = e.store.kind
  policy : e'.policy = e.policy
  clock : e'.clock = e.clock
  pauses : e'.pauses = e.pauses

namespace Steady
variable {e'' : Engine}

theorem refl : Steady e e := ⟨rfl, rfl, rfl, rfl⟩

theorem trans (h : Steady e e') (h' : Steady e' e'') : Steady e e'' :=
  ⟨h'.kind.trans h.kind, h'.policy.trans h.policy, h'.clock.trans h.clock, h'.pauses.trans h.pauses⟩

end Steady

/-- At once, after some lost races, an engine races for what has become of the row. -/
def Reaches (i : String) (index : NodeIndex) (lost : List Bool) (m : Nat) (e : Engine) (r' : Context)
    (e' : Engine) : Prop :=
  ∃ rest, Spent m lost rest ∧ Racing i index rest r' e' ∧ Steady e e'

def Concludes (i : String) (index : NodeIndex) (lost : List Bool) (e : Engine) (course : Course)
    (answer : Except Failure Context) (e' : Engine) : Prop :=
  ∃ r', Reaches i index lost 0 e r' e' ∧ course = ⟨answer, r'.timeless⟩

structure UpToDate (k : Kind) (index : NodeIndex) (r c : Context) : Prop where
  version : c.version = r.version
  timeless : c.timeless = (r.copied k index).timeless

namespace Racing

/-- The copy that is loaded. -/
theorem copy (h : Racing i index lost r e) :
    LoadsAs e i (r.copied e.store.kind index) ∧ r.id = some i := by
  obtain ⟨d, hd⟩ := h.reads
  obtain ⟨graph, hgraph, rfl⟩ := h.provides
  have hread : e.store.getContext (some i) = .ok (some d) := by
    rw [Store.getContext_of_row h.row, h.contested.connected, hd]
    rfl
  obtain ⟨⟨j, r', hj, hr', rfl⟩, hid⟩ := h.ready.sound.getContext_copied hread
  cases hj.symm.trans hid
  cases h.row.symm.trans hr'
  exact ⟨⟨_, graph, hread, hgraph, rfl⟩, hid⟩

theorem of_loadsAs (hready : e.Ready) (hu : Contested lost e) (hl : LoadsAs e i c) :
    ∃ r index, Racing i index lost r e ∧ c = r.copied e.store.kind index := by
  obtain ⟨r, graph, hr, hgraph, hc, -⟩ := hl.row hready.sound
  obtain ⟨d, -, hd, -⟩ := hl
  rw [Store.getContext_of_row hr, hu.connected] at hd
  have hread : ∃ d', e.store.kind.read r = .ok d' := by
    cases hread : e.store.kind.read r with
    | ok d' => exact ⟨d', rfl⟩
    | error f =>
      rw [hread] at hd
      cases hd
  exact ⟨r, graph.index, ⟨hready, hu, hr, hread, graph, hgraph, rfl⟩, hc⟩

theorem noted (h : Racing i index lost r e) (journal : List (Level × String)) :
    Racing i index lost r { e with journal } :=
  ⟨h.ready.noted journal, ⟨h.contested.faults, h.contested.connected, h.contested.dated⟩, h.row,
    h.reads, h.provides⟩

/-- A lost race leaves all but the races to come. -/
theorem lose (h : Racing i index lost r e) (rest : List Bool) :
    Racing i index rest r (losing rest e) := by
  obtain ⟨hready, hcontested, hrow, hreads, hprovides⟩ := h
  refine ⟨⟨hready.alone, hready.unraced, hready.sound, hready.drawn⟩, ⟨?_, hcontested.connected,
    hcontested.dated⟩, hrow, hreads, hprovides⟩
  simp only [losing, hcontested.faults]

/-- A write of times that a calendar shows leaves a row that can be loaded as well. -/
theorem write (h : Racing i index lost r e) (hready : e'.Ready)
    (hstate : e' = { losing rest e with store := e'.store })
    (hflows : Store.SameFlows e.store e'.store) {time : Moment}
    (hch : Changed e.store i changes time r e'.store)
    (hl : ∀ ch ∈ changes, ch.isLegible = true) :
    Racing i index rest (e.store.kind.changed changes time r) e' := by
  have hframe := Context.SameFrame.changed e.store.kind changes time r
  have hregistry : e'.registry = e.registry := by
    rw [hstate]
    rfl
  refine ⟨hready, ⟨?_, hch.connected.trans h.contested.connected, ?_⟩, hch.row, ?_, ?_⟩
  · rw [hstate]
    simp only [losing, h.contested.faults]
  · obtain ⟨t, ht⟩ := h.contested.dated
    rw [hstate]
    exact ⟨t, ht⟩
  · obtain ⟨d, hd⟩ := h.reads
    rw [hch.kind]
    exact Kind.read_congr hd hframe.contact fun hr => e.store.kind.isLegible_changed hr hl time
  · obtain ⟨graph, hgraph, hindex⟩ := h.provides
    exact ⟨graph, hframe.flow ▸ (Provides.congr hregistry hflows).mpr hgraph, hindex⟩

end Racing

namespace Reaches

theorem refl (h : Racing i index lost r e) : Reaches i index lost 0 e r e := ⟨lost, .refl, h, .refl⟩

theorem after {e₁ : Engine} (hs : Spent 0 lost rest) (hst : Steady e e₁)
    (h : Reaches i index rest m e₁ r' e') : Reaches i index lost m e r' e' := by
  obtain ⟨rest', hs', hr, hst'⟩ := h
  exact ⟨rest', by simpa only [Nat.zero_add] using hs.trans hs', hr, hst.trans hst'⟩

theorem of_noted {journal : List (Level × String)}
    (h : Reaches i index lost m { e with journal } r' e') : Reaches i index lost m e r' e' := by
  obtain ⟨rest, hs, hr, hst⟩ := h
  exact ⟨rest, hs, hr, hst.kind, hst.policy, hst.clock, hst.pauses⟩

theorem noted (h : Reaches i index lost m e r' e') (journal : List (Level × String)) :
    Reaches i index lost m e r' { e' with journal } := by
  obtain ⟨rest, hs, hr, hst⟩ := h
  exact ⟨rest, hs, hr.noted journal, hst.trans ⟨rfl, rfl, rfl, rfl⟩⟩

end Reaches

theorem Concludes.after {e₁ : Engine} {course : Course} {answer : Except Failure Context}
    (hs : Spent 0 lost rest) (hst : Steady e e₁) (h : Concludes i index rest e₁ course answer e') :
    Concludes i index lost e course answer e' := by
  obtain ⟨r', hreach, hcourse⟩ := h
  exact ⟨r', hreach.after hs hst, hcourse⟩

namespace UpToDate
variable {k : Kind}

theorem refl (k : Kind) (index : NodeIndex) (r : Context) : UpToDate k index r (r.copied k index) :=
  ⟨rfl, rfl⟩

theorem id (h : UpToDate k index r c) : c.id = r.id := (congrArg Context.id h.timeless :)

theorem node (h : UpToDate k index r c) : c.node = r.node := (congrArg Context.node h.timeless :)

theorem wakeup (h : UpToDate k index r c) : c.wakeup = r.wakeup :=
  (congrArg Context.wakeup h.timeless :)

theorem results (h : UpToDate k index r c) : c.results = r.results :=
  (congrArg Context.results h.timeless :)

theorem index_eq (h : UpToDate k index r c) : c.index = some index :=
  (congrArg Context.index h.timeless :)

theorem opened (h : UpToDate k index r c) (ho : r.completed = none) : c.completed = none := by
  have hcompleted := congrArg Context.completed h.timeless
  simpa [Context.timeless, Context.copied, ho] using hcompleted

/-- A change that is made to both leaves the copy up to date. -/
theorem both {c' : Context} (h : UpToDate k index r c) (f : Context → Context)
    (hf : ∀ x : Context, f (x.copied k index) = (f x).copied k index)
    (hv : c'.version = r'.version) (hr : r'.timeless = f r.timeless)
    (hc : c'.timeless = f c.timeless) : UpToDate k index r' c' where
  version := hv
  timeless := calc
    c'.timeless = f (r.timeless.copied k index) := by
      rw [hc, h.timeless]
      rfl
    _ = r'.timeless.copied k index := by rw [hf, ← hr]
    _ = (r'.copied k index).timeless := rfl

end UpToDate

/-! ## Writes -/

private theorem writeHeld_reaches (h : Racing i index lost r e)
    (hm : UpToDate e.store.kind index r c) (hf : Context.unknownFields changes = [])
    (hl : ∀ ch ∈ changes, ch.isLegible = true) {guarded : Bool} (hb : Roomy e.store.kind r 0) :
    Ensures (writeHeld changes guarded) ⟨e, c⟩
      (fun _ g => e.store.kind.accept changes = .ok () ∧ ∃ r', Reaches i index lost 0 e r' g.state ∧
        r'.version = r.version + 1 ∧ g.held.version = r'.version ∧
        r'.timeless = (r.applyAll (changes.map e.store.kind.change)).timeless ∧
        g.held.timeless = (c.applyAll changes).timeless)
      (fun f g => guarded = true ∧ f.isStale = true ∧ Reaches i index lost 1 e r g.state ∨
        e.store.kind.accept changes = .error f ∧ Reaches i index lost 0 e r g.state) := by
  have hid : c.id = some i := hm.id.trans h.copy.2
  refine (writeHeld_contests h.contested h.ready hid h.row hf fun _ => ⟨hm.version, hb.expectable⟩).mono
    ?_ ?_
  · rintro _ g ⟨haccept, rest, time, updated, hs, hready, hstate, hflows, hch, hheld⟩
    have hsteady : Steady e g.state := by
      refine ⟨hch.kind, ?_, ?_, ?_⟩ <;> rw [hstate] <;> rfl
    refine ⟨haccept, _, ⟨rest, hs, h.write hready hstate hflows hch hl, hsteady⟩, rfl, ?_, rfl, ?_⟩
    · rw [hheld]
      rfl
    · rw [hheld]
      rfl
  · rintro f _ ⟨rest, rfl, ⟨hg, hstale, hs⟩ | ⟨hrefused, hs⟩⟩
    · exact .inl ⟨hg, hstale, rest, hs, h.lose rest, ⟨rfl, rfl, rfl, rfl⟩⟩
    · exact .inr ⟨hrefused, rest, hs, h.lose rest, ⟨rfl, rfl, rfl, rfl⟩⟩

private theorem writeMarks_reaches (h : Racing i index lost r e)
    (hm : UpToDate e.store.kind index r c) (hf : Context.unknownFields changes = [])
    (hl : ∀ ch ∈ changes, ch.isLegible = true) {guarded : Bool} (hb : Roomy e.store.kind r 0)
    (hw : Store.WellTyped changes) :
    Ensures (writeHeld changes guarded) ⟨e, c⟩
      (fun _ g => ∃ r', Reaches i index lost 0 e r' g.state ∧
        r'.version = r.version + 1 ∧ g.held.version = r'.version ∧
        r'.timeless = (r.applyAll (changes.map e.store.kind.change)).timeless ∧
        g.held.timeless = (c.applyAll changes).timeless)
      (fun f g => guarded = true ∧ f.isStale = true ∧ Reaches i index lost 1 e r g.state) := by
  refine (writeHeld_reaches h hm hf hl hb).mono (fun _ _ hdone => hdone.2) ?_
  rintro f g (hlost | ⟨hrefused, -⟩)
  · exact hlost
  · rw [e.store.kind.accept_of_wellTyped hw] at hrefused
    cases hrefused

private theorem resume_reaches (h : Racing i index lost r e) (hm : UpToDate e.store.kind index r c)
    (ho : r.completed = none) (hb : Roomy e.store.kind r 0) : Ensures resume ⟨e, c⟩
      (fun _ g => ∃ r', Reaches i index lost 0 e r' g.state ∧ r'.version = r.version + 1 ∧
        r'.timeless = { r.timeless with wakeup := none } ∧ UpToDate e.store.kind index r' g.held)
      (fun f g => f.isStale = true ∧ Reaches i index lost 1 e r g.state) := by
  unfold resume
  apply Ensures.bind
  refine (requireOpen_answers .resume (hm.opened ho)).mono ?_ fun _ _ h => h.elim
  rintro _ _ rfl
  apply Ensures.bind
  refine (writeMarks_reaches h hm rfl (by decide) hb fun v hv => by simp at hv).mono ?_
    fun _ _ hlost => hlost.2
  rintro _ g ⟨r', hreach, hversion, hv, hrow, hheld⟩
  apply Ensures.bind
  apply Ensures.held
  refine (remark_answers _ _).mono ?_ fun _ _ h => h.elim
  rintro _ _ ⟨journal, rfl⟩
  exact ⟨r', hreach.noted journal, hversion, hrow,
    hm.both (fun x => { x with wakeup := none }) (fun _ => rfl) hv hrow hheld⟩

private def Records (i : String) (index : NodeIndex) (lost : List Bool) (e : Engine) (r : Context)
    (given : Json) (g : Holding Engine Context) : Prop :=
  ∃ r' new, recorded given r.results = .ok new ∧ Reaches i index lost 0 e r' g.state ∧
    r.version ≤ r'.version ∧ r'.version ≤ r.version + 1 ∧
    r'.timeless = { r.timeless with results := new } ∧ UpToDate e.store.kind index r' g.held

private theorem Records.nothing (h : Racing i index lost r e) (hm : UpToDate e.store.kind index r c)
    (hnew : recorded given r.results = .ok r.results) : Records i index lost e r given ⟨e, c⟩ :=
  ⟨r, r.results, hnew, .refl h, Int.le_refl _, by omega, rfl, hm⟩

private theorem record_reaches (h : Racing i index lost r e) (hm : UpToDate e.store.kind index r c)
    (ho : r.completed = none) (hb : Roomy e.store.kind r 0) {values : List (String × Json)}
    (hgiven : (Json.object values).isGiven = true) :
    Ensures (record values) ⟨e, c⟩ (fun _ g => Records i index lost e r (.object values) g)
      (fun f g => f.isStale = true ∧ Reaches i index lost 1 e r g.state ∨
        recorded (.object values) r.results = .error f ∧ Reaches i index lost 0 e r g.state) := by
  unfold record
  split
  · rename_i name v hname
    refine Ensures.throw (.inr ⟨?_, .refl h⟩)
    simp only [recorded, hgiven, if_pos, hname]
  · rename_i hfree
    apply Ensures.bind
    refine (requireOpen_answers .record (hm.opened ho)).mono ?_ fun _ _ h => h.elim
    rintro _ _ rfl
    split
    · rename_i hvalues
      have hvalues : values.isEmpty = false := by simpa using hvalues
      apply Ensures.bind
      apply Ensures.held
      rw [hm.results]
      split
      · rename_i old hold
        have hnew : recorded (.object values) r.results = .ok (.object (Table.merge old values)) := by
          simp only [recorded, hgiven, if_pos, hfree, hvalues, hold]
          rfl
        refine (writeMarks_reaches h hm rfl (by simp [Context.Change.isLegible]) hb
          fun v hv => by simp at hv).mono ?_
          fun _ _ hlost => .inl hlost.2
        rintro _ g ⟨r', hreach, hversion, hv, hrow, hheld⟩
        refine ⟨r', _, hnew, hreach, by omega, by omega, hrow, ?_⟩
        exact hm.both (fun x => { x with results := .object (Table.merge old values) })
          (fun _ => rfl) hv hrow hheld
      · refine Ensures.throw (.inr ⟨?_, .refl h⟩)
        simp only [recorded, hgiven, if_pos, hfree, hvalues, Bool.false_eq_true, if_false]
    · rename_i hvalues
      have hvalues : values.isEmpty = true := by simpa using hvalues
      refine Ensures.pure (.nothing h hm ?_)
      simp only [recorded, hgiven, if_pos, hfree, hvalues]

private theorem recordGiven_reaches (h : Racing i index lost r e)
    (hm : UpToDate e.store.kind index r c) (ho : r.completed = none) (hb : Roomy e.store.kind r 0) :
    Ensures (recordGiven given) ⟨e, c⟩ (fun _ g => Records i index lost e r given g)
      (fun f g => f.isStale = true ∧ Reaches i index lost 1 e r g.state ∨
        recorded given r.results = .error f ∧ Reaches i index lost 0 e r g.state) := by
  unfold recordGiven
  split
  · rename_i hgiven
    split
    · exact record_reaches h hm ho hb hgiven
    · rename_i hobject
      refine Ensures.throw (.inr ⟨?_, .refl h⟩)
      unfold recorded
      rw [if_pos hgiven]
      split
      · rename_i values
        exact absurd rfl (hobject values)
      · rfl
  · rename_i hgiven
    refine Ensures.pure (.nothing h hm ?_)
    simp only [recorded, hgiven]
    rfl

private theorem end_reaches (h : Racing i index lost r e) (hm : UpToDate e.store.kind index r c)
    (hb : Roomy e.store.kind r 0) {t : Moment} (ht : t.isDated = true) (guarded : Bool) :
    Ensures (writeHeld [.completed (some t), .wakeup none] guarded) ⟨e, c⟩
      (fun _ g => ∃ r', Reaches i index lost 0 e r' g.state ∧ r'.timeless = r.timeless.ended ∧
        g.held.timeless = (r.timeless.copied e.store.kind index).ended)
      (fun f g => guarded = true ∧ f.isStale = true ∧ Reaches i index lost 1 e r g.state) := by
  refine (writeMarks_reaches h hm rfl (by simp [Context.Change.isLegible, ht]) hb
    fun v hv => by simp at hv).mono ?_ fun _ _ hlost => hlost
  rintro _ g ⟨r', hreach, -, -, hrow, hheld⟩
  refine ⟨r', hreach, hrow, hheld.trans ?_⟩
  change c.timeless.ended = _
  rw [hm.timeless]
  rfl

private theorem abandon_reaches {α : Type} (h : Racing i index lost r e)
    (hm : UpToDate e.store.kind index r c) (hb : Roomy e.store.kind r 0) (node : Json) :
    Ensures (abandon node : OnCopy α) ⟨e, c⟩ (fun _ _ => False)
      (fun f g => Concludes i index lost e ((Way.abandon node).course e.store.kind index r.timeless)
        (.error f) g.state) := by
  unfold abandon
  apply Ensures.bind
  apply Ensures.held
  apply Ensures.bind
  refine (remark_answers _ _).mono ?_ fun _ _ h => h.elim
  rintro _ _ ⟨journal, rfl⟩
  apply Ensures.bind
  apply Ensures.beside
  obtain ⟨t, ht⟩ := (h.noted journal).contested.dated
  obtain ⟨hd, rfl⟩ := Moment.dated_eq_ok.mp ht
  refine (now_tells ht).mono ?_ fun _ _ h => h.elim
  rintro _ _ ⟨rfl, rfl⟩
  apply Ensures.bind
  refine (end_reaches (h.noted journal) hm hb (Moment.isDated_cutToMillis hd) false).mono ?_ fun _ _ h => by cases h.1
  rintro _ g ⟨r', hreach, hrow, hheld⟩
  apply Ensures.bind
  apply Ensures.held
  refine Ensures.throw ⟨r', hreach.of_noted, ?_⟩
  have hid : g.held.id = r.id := (congrArg Context.id hheld :)
  rw [hid, hrow]
  rfl

private theorem finish_reaches (h : Racing i index lost r e)
    (hm : UpToDate e.store.kind index r c) (hb : Roomy e.store.kind r 0) (text : String) :
    Ensures (do
      let t ← Action.beside now
      writeHeld [.completed (some t), .wakeup none] true
      remark .info text) ⟨e, c⟩
      (fun _ g => Concludes i index lost e (Way.finish.course e.store.kind index r.timeless)
        (.ok g.held.timeless) g.state)
      (fun f g => f.isStale = true ∧ Reaches i index lost 1 e r g.state) := by
  apply Ensures.bind
  apply Ensures.beside
  obtain ⟨t, ht⟩ := h.contested.dated
  obtain ⟨hd, rfl⟩ := Moment.dated_eq_ok.mp ht
  refine (now_tells ht).mono ?_ fun _ _ h => h.elim
  rintro _ _ ⟨rfl, rfl⟩
  apply Ensures.bind
  refine (end_reaches h hm hb (Moment.isDated_cutToMillis hd) true).mono ?_ fun f g hlost => hlost.2
  rintro _ g ⟨r', hreach, hrow, hheld⟩
  refine (remark_answers _ _).mono ?_ fun _ _ h => h.elim
  rintro _ _ ⟨journal, rfl⟩
  refine ⟨r', hreach.noted journal, ?_⟩
  rw [hheld, hrow]
  rfl

private theorem move_reaches (h : Racing i index lost r e)
    (hm : UpToDate e.store.kind index r c) (hb : Roomy e.store.kind r 0) (destination : Json)
    (text : String) : Ensures (do
      writeHeld [.node destination, .wakeup none] true
      remark .debug text) ⟨e, c⟩
      (fun _ g => Concludes i index lost e ((Way.move destination).course e.store.kind index r.timeless)
        (.ok g.held.timeless) g.state)
      (fun f g => f.isStale = true ∧ Reaches i index lost 1 e r g.state ∨
        Concludes i index lost e ((Way.move destination).course e.store.kind index r.timeless)
          (.error f) g.state) := by
  apply Ensures.bind
  refine (writeHeld_reaches h hm rfl (by simp [Context.Change.isLegible]) hb).mono ?_ ?_
  · rintro _ g ⟨haccept, r', hreach, -, -, hrow, hheld⟩
    refine (remark_answers _ _).mono ?_ fun _ _ h => h.elim
    rintro _ _ ⟨journal, rfl⟩
    refine ⟨r', hreach.noted journal, ?_⟩
    have hcopy : g.held.timeless =
        { r.timeless.copied e.store.kind index with node := destination, wakeup := none } := by
      refine hheld.trans ?_
      change { c.timeless with node := destination, wakeup := none } = _
      rw [hm.timeless]
      rfl
    simp only [Way.course, haccept]
    rw [hcopy, hrow]
    rfl
  · rintro f g (⟨-, hstale, hreach⟩ | ⟨hrefused, hreach⟩)
    · exact .inl ⟨hstale, hreach⟩
    · refine .inr ⟨r, hreach, ?_⟩
      simp only [Way.course, hrefused]

private theorem advance_reaches (h : Racing i index lost r e)
    (hm : UpToDate e.store.kind index r c) (ho : r.completed = none) (hb : Roomy e.store.kind r 0) :
    Ensures (advance choice) ⟨e, c⟩
      (fun _ g => Concludes i index lost e (advanceCourse e.store.kind index choice r.timeless)
        (.ok g.held.timeless) g.state)
      (fun f g => f.isStale = true ∧ Reaches i index lost 1 e r g.state ∨
        Concludes i index lost e (advanceCourse e.store.kind index choice r.timeless)
          (.error f) g.state) := by
  have hnode : r.timeless.node = r.node := rfl
  have hway {w : Way} (hw : way index choice r.node = .ok w) :
      advanceCourse e.store.kind index choice r.timeless = w.course e.store.kind index r.timeless := by
    simp only [advanceCourse, hnode, hw]
  have hfails {f : Failure} (hw : way index choice r.node = .error f) :
      advanceCourse e.store.kind index choice r.timeless = ⟨.error f, r.timeless⟩ := by
    simp only [advanceCourse, hnode, hw]
  unfold advance
  apply Ensures.bind
  refine (requireOpen_answers .advance (hm.opened ho)).mono ?_ fun _ _ h => h.elim
  rintro _ _ rfl
  unfold bind
  apply Ensures.bind
  apply Ensures.bind
  apply Ensures.held
  rw [hm.index_eq]
  apply Ensures.pure
  apply Ensures.bind
  apply Ensures.held
  rw [hm.node]
  apply Ensures.bind
  refine Ensures.ofExcept (fun found hfound => ?_) fun f hf => .inr ⟨r, .refl h, hfails ?_⟩
  · cases found with
    | none =>
      refine (abandon_reaches h hm hb _).mono (fun _ _ h => h.elim) ?_
      rintro f g ⟨r', hreach, hcourse⟩
      refine .inr ⟨r', hreach, (hway ?_).trans hcourse⟩
      simp only [way, hfound]
    | some node =>
      dsimp only
      apply Ensures.bind
      refine Ensures.ofExcept (fun found hdestination => ?_) fun f hf => .inr ⟨r, .refl h, hfails ?_⟩
      · cases found with
        | none =>
          rw [hway (w := .finish) (by simp only [way, hfound, hdestination])]
          exact (finish_reaches h hm hb _).mono (fun _ _ hends => hends) fun _ _ => .inl
        | some destination =>
          dsimp only
          apply Ensures.bind
          refine Ensures.ofExcept (fun there hthere => ?_) fun f hf => .inr ⟨r, .refl h, hfails ?_⟩
          · cases there with
            | none =>
              refine (abandon_reaches h hm hb _).mono (fun _ _ h => h.elim) ?_
              rintro f g ⟨r', hreach, hcourse⟩
              refine .inr ⟨r', hreach, (hway ?_).trans hcourse⟩
              simp only [way, hfound, hdestination, hthere]
            | some _ =>
              rw [hway (w := .move destination) (by simp only [way, hfound, hdestination, hthere])]
              exact move_reaches h hm hb destination _
          · simp only [way, hfound, hdestination, hf]
      · simp only [way, hfound, hf]
  · simp only [way, hf]

/-! ## Tries -/

/-- A row that an input leaves when it loses a race: open, and with the same course before it. -/
structure ResumesCourse (k : Kind) (index : NodeIndex) (choice given : Json) (r r' : Context) : Prop where
  opened : r'.completed = none
  course : course k index choice given r'.timeless = course k index choice given r.timeless
  lower : r.version ≤ r'.version
  upper : r'.version ≤ r.version + 2

private theorem completed_of_timeless {r r' : Context} (h : r'.timeless.completed = r.timeless.completed)
    (ho : r.completed = none) : r'.completed = none := by
  simpa [Context.timeless, ho] using h

private theorem rest_reaches (h : Racing i index lost r e) (hm : UpToDate e.store.kind index r c)
    (ho : r.completed = none) (hb : Roomy e.store.kind r 1) :
    Ensures (do recordGiven given; advance choice) ⟨e, c⟩
      (fun _ g => Concludes i index lost e (recordCourse e.store.kind index choice given r.timeless)
        (.ok g.held.timeless) g.state)
      (fun f g => f.isStale = true ∧ (∃ r', Reaches i index lost 1 e r' g.state ∧
          (r'.timeless = r.timeless ∨ ∃ new, recorded given r.results = .ok new ∧
            r'.timeless = { r.timeless with results := new }) ∧
          r.version ≤ r'.version ∧ r'.version ≤ r.version + 1) ∨
        Concludes i index lost e (recordCourse e.store.kind index choice given r.timeless)
          (.error f) g.state) := by
  have hresults : r.timeless.results = r.results := rfl
  apply Ensures.bind
  refine (recordGiven_reaches h hm ho (hb.mono (Int.le_refl _) (by omega))).mono ?_ ?_
  · rintro _ g ⟨r₁, new, hnew, ⟨rest, hs, h₁, hst⟩, hlower, hupper, hrow, hm₁⟩
    have ho₁ : r₁.completed = none := completed_of_timeless (hrow ▸ rfl) ho
    have hcourse : recordCourse e.store.kind index choice given r.timeless =
        advanceCourse e.store.kind index choice r₁.timeless := by
      simp only [recordCourse, hresults, hnew, hrow]
    rw [hcourse]
    rw [← hst.kind] at hb hm₁ ⊢
    refine (advance_reaches h₁ hm₁ ho₁ (hb.mono hlower (by omega))).mono ?_ ?_
    · exact fun _ _ hends => hends.after hs hst
    · rintro f g' (⟨hstale, hreach⟩ | hends)
      · exact .inl ⟨hstale, r₁, hreach.after hs hst, .inr ⟨new, hnew, hrow⟩, hlower, hupper⟩
      · exact .inr (hends.after hs hst)
  · rintro f g (⟨hstale, hreach⟩ | ⟨hfailed, hreach⟩)
    · exact .inl ⟨hstale, r, hreach, .inl rfl, Int.le_refl _, by omega⟩
    · refine .inr ⟨r, hreach, ?_⟩
      simp only [recordCourse, hresults, hfailed]

section Taking
variable (given : Json) (ho : r.completed = none) (hb : Roomy e.store.kind r 2)
  (hcheck : checkInput { r.timeless with index := some index } choice = .ok ())
include ho hb hcheck

private theorem awake_reaches {g : Holding Engine Context} {r₁ : Context}
    (hreach : Reaches i index lost 0 e r₁ g.state) (hm : UpToDate e.store.kind index r₁ g.held)
    (hrow : r₁.timeless = { r.timeless with wakeup := none }) (hlower : r.version ≤ r₁.version)
    (hupper : r₁.version ≤ r.version + 1) : Ensures (do recordGiven given; advance choice) g
      (fun _ g => Concludes i index lost e (course e.store.kind index choice given r.timeless)
        (.ok g.held.timeless) g.state)
      (fun f g => f.isStale = true ∧ (∃ r', Reaches i index lost 1 e r' g.state ∧
          ResumesCourse e.store.kind index choice given r r') ∨
        f.isStale = false ∧ Concludes i index lost e
          (course e.store.kind index choice given r.timeless) (.error f) g.state) := by
  have hcourse : course e.store.kind index choice given r.timeless =
      recordCourse e.store.kind index choice given r₁.timeless := by
    simp only [course, hcheck, hrow]
  obtain ⟨rest, hs, h₁, hst⟩ := hreach
  have ho₁ : r₁.completed = none := completed_of_timeless (hrow ▸ rfl) ho
  rw [hcourse]
  rw [← hst.kind] at hb hm ⊢
  refine (rest_reaches h₁ hm ho₁ (hb.mono hlower (by omega))).mono ?_ ?_
  · exact fun _ _ hends => hends.after hs hst
  · rintro f g' (⟨hstale, r', hreach', hleft, hlower', hupper'⟩ | hends)
    · refine .inl ⟨hstale, r', hreach'.after hs hst, ?_, ?_, by omega, by omega⟩
      · refine completed_of_timeless ?_ ho₁
        obtain hsame | ⟨_, -, hsame⟩ := hleft <;> rw [hsame]
      · obtain hsame | ⟨new, hnew, hsame⟩ := hleft
        · rw [hsame, hrow]
          exact course_awake hcheck
        · have hresults : r₁.results = r.timeless.results := (congrArg Context.results hrow :)
          rw [hsame, hrow]
          exact course_recorded hcheck (hresults ▸ hnew)
    · refine .inr ⟨?_, hends.after hs hst⟩
      obtain ⟨r', -, hends⟩ := hends
      exact recordCourse_raceless _ _ _ _ _ f (congrArg Course.answer hends)

private theorem take_reaches (h : Racing i index lost r e) (hm : UpToDate e.store.kind index r c) :
    Ensures (take choice given) ⟨e, c⟩
      (fun _ g => Concludes i index lost e (course e.store.kind index choice given r.timeless)
        (.ok g.held.timeless) g.state)
      (fun f g => f.isStale = true ∧ (∃ r', Reaches i index lost 1 e r' g.state ∧
          ResumesCourse e.store.kind index choice given r r') ∨
        f.isStale = false ∧ Concludes i index lost e
          (course e.store.kind index choice given r.timeless) (.error f) g.state) := by
  unfold take
  apply Ensures.bind
  apply Ensures.held
  dsimp only
  split
  · apply Ensures.bind
    refine (resume_reaches h hm ho (hb.mono (Int.le_refl _) (by omega))).mono ?_ ?_
    · rintro _ g ⟨r₁, hreach, hversion, hrow, hm₁⟩
      exact awake_reaches given ho hb hcheck hreach hm₁ hrow (by omega) (by omega)
    · rintro f g ⟨hstale, hreach⟩
      exact .inl ⟨hstale, r, hreach, ho, rfl, Int.le_refl _, by omega⟩
  · rename_i hawake
    have hwakeup : r.wakeup = none := hm.wakeup.symm.trans (wakeup_eq_none (hm.opened ho) hawake)
    have hrow : r.timeless = { r.timeless with wakeup := none } := by
      rw [← hwakeup]
      rfl
    exact awake_reaches given ho hb hcheck (.refl h) hm hrow (Int.le_refl _) (by omega)

end Taking

/-- A load leaves the race to come. -/
theorem load_races (h : Racing i index lost r e) : Ensures (load (some i)) e
    (fun c e' => c = r.copied e.store.kind index ∧ Racing i index lost r e' ∧ Steady e e')
    (fun _ _ => False) := by
  have hcalm := h.lose []
  have hfaults : (losing [] e).faults = .none := hcalm.contested.faults
  have hself : losing lost (losing [] e) = e := h.contested.losing_self
  rw [← hself]
  apply (load_overlooks lost (some i)).ensures
  have hready := hcalm.ready
  refine ((load_loadsAs hready.alone hready.sound hfaults i).and (load_copies hready i)).mono ?_ ?_
  · rintro c e' ⟨⟨hload, hc, hagain⟩, hready, -, -⟩
    have hcopy : c = r.copied e.store.kind index := hcalm.copy.1.unique hload
    obtain ⟨d, graph, -, hgraph, hd⟩ := hagain
    have hflow : d.flow = r.flow := (congrArg Context.flow (hd.symm.trans hcopy) :)
    have hindex : some graph.index = some index :=
      (congrArg Context.index (hd.symm.trans hcopy) :)
    have hrow : e'.store.row? i = some r := hc.store ▸ hcalm.row
    have hracing : Racing i index [] r e' := by
      refine ⟨hready, ⟨hc.faults.trans hfaults, hc.store ▸ h.contested.connected, ?_⟩, hrow, ?_, graph,
        ?_, ?_⟩
      · obtain ⟨t, ht⟩ := h.contested.dated
        exact ⟨t, hc.clock ▸ ht⟩
      · exact hc.store ▸ h.reads
      · exact hflow ▸ hgraph
      · exact Option.some.inj hindex
    exact ⟨hcopy, hracing.lose lost, ⟨(congrArg Store.kind hc.store :), hc.policy, hc.clock, hc.pauses⟩⟩
  · rintro _ _ ⟨⟨hnone, -⟩, -⟩
    exact hnone _ hcalm.copy.1

/-- A try takes its course, or loses a race on the way. -/
theorem tryInput_reaches (choice given : Json) (h : Racing i index lost r e) (ho : r.completed = none)
    (hb : Roomy e.store.kind r 2) : Ensures (tryInput (some i) choice given) e
      (fun result e' =>
        match result with
        | .ok c => Concludes i index lost e (course e.store.kind index choice given r.timeless)
            (.ok c.timeless) e'
        | .error f => f.isStale = true ∧ ∃ r', Reaches i index lost 1 e r' e' ∧
            ResumesCourse e.store.kind index choice given r r')
      (fun f e' => Concludes i index lost e (course e.store.kind index choice given r.timeless)
        (.error f) e') := by
  unfold tryInput
  apply Ensures.bind
  refine (load_races h).mono ?_ fun _ _ h => h.elim
  rintro _ e₁ ⟨rfl, h₁, hst⟩
  apply Ensures.bind
  rw [checkInput_copied]
  refine Ensures.ofExcept (fun _ hok => ?_) fun f hf => ⟨r, .after .refl hst (.refl h₁), ?_⟩
  · apply Ensures.bind
    apply Ensures.attempt
    apply Ensures.holding
    have hm : UpToDate e₁.store.kind index r (r.copied e.store.kind index) :=
      hst.kind ▸ UpToDate.refl _ _ _
    have htake := take_reaches given ho (hst.kind ▸ hb) hok h₁ hm
    rw [hst.kind] at htake
    refine htake.mono ?_ ?_
    · exact fun _ _ hends => Ensures.pure (hends.after .refl hst)
    · rintro f g (⟨hstale, r', hreach, hresumes⟩ | ⟨hplain, hends⟩)
      · cases f with
        | stale context expected actual =>
          exact Ensures.pure ⟨rfl, r', hreach.after .refl hst, hresumes⟩
        | _ => cases hstale
      · cases f with
        | stale context expected actual => cases hplain
        | _ => exact Ensures.throw (hends.after .refl hst)
  · simp only [course, hf]

end Engine
end DurableFlow
