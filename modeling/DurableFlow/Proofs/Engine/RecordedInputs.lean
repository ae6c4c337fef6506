import DurableFlow.Proofs.Engine.RetriedInputs

/-! Inputs that nobody races. With results that can be recorded an input is applied as a whole, or
fails with nothing written unless its context dangles. Results with a reserved name are refused only when
the wait of the row has been ended already. -/
namespace DurableFlow.Engine
open DurableFlow.Action (Ensures)
open DurableFlow.Flow (NodeIndex)
open Store (Kind Roomy)
variable {e e' : Engine} {c : Context} {i : String} {r r' : Context} {index : NodeIndex} {f : Failure}
  {choice given new : Json} {values : List (String × Json)} {name : String}

/-! ## Reserved names -/

def reserved? (values : List (String × Json)) : Option String :=
  (values.find? fun (name, _) => name ∈ reservedNames).map Prod.fst

theorem recorded_of_free (h : reserved? values = none) (old : List (String × Json)) :
    recorded (.object values) (.object old) = .ok (.object (Table.merge old values)) := by
  have hfree : values.find? (fun (name, _) => name ∈ reservedNames) = none := by
    simpa only [reserved?, Option.map_eq_none_iff] using h
  cases values with
  | nil => rfl
  | cons x rest =>
    have hgiven : (Json.object (x :: rest)).isGiven = true := rfl
    simp only [recorded, hgiven, if_pos, hfree, List.isEmpty_cons, Bool.false_eq_true, if_false]

theorem recorded_of_reserved (h : reserved? values = some name) (old : Json) :
    recorded (.object values) old = .error (.reservedName name) := by
  obtain ⟨⟨_, v⟩, hfound, rfl⟩ := Option.map_eq_some_iff.mp h
  cases values with
  | nil => cases hfound
  | cons x rest =>
    have hgiven : (Json.object (x :: rest)).isGiven = true := rfl
    simp only [recorded, hgiven, if_pos, hfound]

/-- Nothing but a reserved name or stored results that are no object keeps an object from being recorded. -/
theorem recorded_ne_error (h : reserved? values = none) {old : List (String × Json)}
    (hr : r.results = .object old) (f : Failure) : recorded (.object values) r.results ≠ .error f := by
  rw [hr, recorded_of_free h]
  intro hf
  cases hf

/-! ## Failures before an advance -/

/-- An input that loses no race ends with its first try. -/
theorem deliver_of_try {id : Option String} {post : Context → Engine → Prop}
    {fails : Failure → Engine → Prop}
    (h : Ensures (tryInput id choice given) e (fun result e' => ∃ c, result = .ok c ∧ post c e') fails) :
    Ensures (deliver id choice given) e post fails := by
  unfold deliver
  apply Ensures.bind
  apply Ensures.get
  dsimp only
  generalize e.policy.tries?.getD (e.faults.lost.length + e.others.length + 1) = bound
  cases bound with
  | zero | succ _ =>
    apply Ensures.bind
    refine h.mono ?_ fun _ _ hfails => hfails
    rintro _ e' ⟨c, rfl, hpost⟩
    exact Ensures.pure hpost

private theorem deliver_unloaded (he : e.Ready) (hu : CanWrite e) (hnone : ¬ ∃ c, LoadsAs e i c) :
    Ensures (deliver (some i) choice given) e (fun _ _ => False) (fun _ e' => e'.store = e.store) := by
  apply deliver_of_try
  apply Ensures.bind
  refine (load_loadsAs he.alone he.sound hu.unfailing i).mono ?_ fun _ _ h => h.2.store
  rintro c _ ⟨hc, -, -⟩
  exact absurd ⟨c, hc⟩ hnone

private theorem load_answers (he : e.Ready) (hu : CanWrite e) (hc : LoadsAs e i c) :
    Ensures (load (some i)) e (fun c' e' => c' = c ∧ e'.Ready ∧ CanWrite e' ∧ e'.store = e.store)
      (fun _ _ => False) := by
  have hload := load_loadsAs he.alone he.sound hu.unfailing i
  refine (hload.and (load_ensures he i)).mono ?_ fun _ _ h => h.1.1 c hc
  rintro c' e' ⟨⟨hc', hcalm, -⟩, hready, -⟩
  exact ⟨hc.unique hc', hready, hu.calm hcalm, hcalm.store⟩

private theorem deliver_unchecked (he : e.Ready) (hu : CanWrite e) (hc : LoadsAs e i c)
    (hcheck : checkInput c choice = .error f) :
    Ensures (deliver (some i) choice given) e (fun _ _ => False) (fun _ e' => e'.store = e.store) := by
  apply deliver_of_try
  apply Ensures.bind
  refine (load_answers he hu hc).mono ?_ fun _ _ h => h.elim
  rintro _ e₁ ⟨rfl, -, -, hstore⟩
  apply Ensures.bind
  refine Ensures.ofExcept (fun _ hok => ?_) fun _ _ => hstore
  cases hcheck.symm.trans hok

private theorem recordGiven_refuses (ho : c.completed = none)
    (hf : recorded (.object values) c.results = .error f) :
    Ensures (recordGiven (.object values)) ⟨e, c⟩ (fun _ _ => False)
      (fun f' g => f' = f ∧ g = ⟨e, c⟩) := by
  have hgiven : (Json.object values).isGiven = true := by
    by_contra hnone
    simp only [recorded, hnone, if_false] at hf
    cases hf
  simp only [recorded, hgiven, if_pos] at hf
  unfold recordGiven
  rw [if_pos hgiven]
  unfold record
  dsimp only
  split
  · rename_i name v hname
    simp only [hname] at hf
    cases hf
    exact Ensures.throw ⟨rfl, rfl⟩
  · rename_i hfree
    simp only [hfree] at hf
    apply Ensures.bind
    refine (requireOpen_answers .record ho).mono ?_ fun _ _ h => h.elim
    rintro _ _ rfl
    split at hf
    · cases hf
    · rename_i hvalues
      rw [if_pos (by simpa using hvalues)]
      apply Ensures.bind
      apply Ensures.held
      split
      · rename_i old hold
        simp only [hold] at hf
        cases hf
      · rename_i hother
        split at hf
        · rename_i old hold
          exact absurd hold (hother old)
        · cases hf
          exact Ensures.throw ⟨rfl, rfl⟩

def HalfApplied (i : String) (r : Context) (s : Store) : Prop :=
  ∃ updated, s.row? i = some { r with wakeup := none, version := r.version + 1, updated }

/-- What an input leaves of the row when its results are refused. The wait is ended before. -/
def LeavesRefused (i : String) (r : Context) (s s' : Store) : Prop :=
  if r.wakeup = none then s' = s else HalfApplied i r s'

private theorem take_refuses (choice : Json) (he : e.Ready) (hu : CanWrite e) (hid : c.id = some i)
    (hr : e.store.row? i = some r) (ho : c.completed = none) (hv : c.version = r.version)
    (hw : c.wakeup = r.wakeup) (hb : Expectable e.store r)
    (hf : recorded (.object values) c.results = .error f) :
    Ensures (take choice (.object values)) ⟨e, c⟩ (fun _ _ => False)
      (fun f' g => f' = f ∧ LeavesRefused i r e.store g.state.store) := by
  unfold take
  apply Ensures.bind
  apply Ensures.held
  dsimp only
  split
  · rename_i hwaits
    have hwakeup : r.wakeup ≠ none := by
      rw [← hw]
      intro hnone
      simp [Context.isSuspended, Context.status, ho, hnone] at hwaits
    apply Ensures.bind
    refine (resume_answers he hu hid hr ho hv hb).mono ?_ fun _ _ h => h.elim
    rintro _ ⟨e₁, c₁⟩ ⟨time, updated, hch, hheld⟩
    have ho₁ : c₁.completed = none := (congrArg Context.completed hheld).trans ho
    have hresults : c₁.results = c.results := (congrArg Context.results hheld :)
    apply Ensures.bind
    refine (recordGiven_refuses ho₁ (hresults ▸ hf)).mono (fun _ _ h => h.elim) ?_
    rintro _ _ ⟨rfl, rfl⟩
    refine ⟨rfl, ?_⟩
    rw [LeavesRefused, if_neg hwakeup]
    exact ⟨_, hch.row⟩
  · rename_i hawake
    apply Ensures.bind
    refine (recordGiven_refuses ho hf).mono (fun _ _ h => h.elim) ?_
    rintro _ _ ⟨rfl, rfl⟩
    refine ⟨rfl, ?_⟩
    rw [LeavesRefused, if_pos (hw.symm.trans (wakeup_eq_none ho hawake))]

private theorem deliver_refuses (he : e.Ready) (hu : CanWrite e) (hr : e.store.row? i = some r)
    (hc : LoadsAs e i c) (hcheck : checkInput c choice = .ok ()) (hb : Expectable e.store r)
    (hf : recorded (.object values) r.results = .error f) :
    Ensures (deliver (some i) choice (.object values)) e (fun _ _ => False)
      (fun f' e' => f' = f ∧ LeavesRefused i r e.store e'.store) := by
  obtain ⟨r', graph, hr', -, hcopy, hid⟩ := hc.row he.sound
  cases hr.symm.trans hr'
  have ho : c.completed = none := by
    simpa [Context.isCompleted] using isOpen_of_checkInput hcheck
  apply deliver_of_try
  apply Ensures.bind
  refine (load_answers he hu hc).mono ?_ fun _ _ h => h.elim
  rintro _ e₁ ⟨rfl, he₁, hu₁, hstore⟩
  apply Ensures.bind
  refine Ensures.ofExcept (fun _ _ => ?_) fun _ hrefused => by cases hcheck.symm.trans hrefused
  apply Ensures.bind
  apply Ensures.attempt
  apply Ensures.holding
  rw [← hstore] at hr hb ⊢
  have htake := take_refuses choice he₁ hu₁ hid hr ho (by rw [hcopy]) (by rw [hcopy]) hb
    (by rw [hcopy]; exact hf)
  refine htake.mono (fun _ _ h => h.elim) ?_
  rintro f' g ⟨rfl, hrefuses⟩
  have hplain := recorded_raceless (.object values) r.results f' hf
  cases f' with
  | stale context expected actual => cases hplain
  | _ => exact Ensures.throw ⟨rfl, hrefuses⟩

/-! ## Courses that are run through -/

/-- A context before and after an input: the results are recorded, the wait is over, and the context
stands behind the exit that was taken, or has ended. A store may spell the name of a node in its own way. -/
structure Applied (spelled : Json → Json) (destination : Option Json) (results : Json)
    (c c' : Context) : Prop where
  results : c'.results = results
  wakeup : c'.wakeup = none
  node : c'.node = (destination.map spelled).getD c.node
  ended : c'.completed.isSome = destination.isNone
  frame : c.SameFrame c'

theorem Applied.of_timeless {spelled : Json → Json} {destination : Option Json} {c' : Context}
    (h : Applied spelled destination new c.timeless c'.timeless) :
    Applied spelled destination new c c' := by
  obtain ⟨hresults, hwakeup, hnode, hended, hid, hcontact, hflow, hflowUuid, hparent, hinserted,
    hindex⟩ := h
  refine ⟨hresults, hwakeup, hnode, ?_, hid, hcontact, hflow, hflowUuid, hparent, hinserted, hindex⟩
  simpa only [Context.timeless, Option.isSome_map] using hended

theorem checkInput_of_leads {destination : Option Json} (ho : c.completed = none)
    (hl : Leads c choice destination) : checkInput c choice = .ok () := by
  obtain ⟨index, node, hindex, hnode, hdestination, -⟩ := hl
  obtain ⟨exit, hexit, -⟩ := Flow.Node.destination_eq_ok.mp hdestination
  have hopen : c.isCompleted = false := by rw [Context.isCompleted, ho]; rfl
  unfold checkInput
  rw [hopen, hindex]
  dsimp only
  rw [hnode]
  change discard (node.exitAt choice) = _
  rw [hexit]
  rfl

/-- An input that can be recorded and taken runs its course. -/
theorem course_applies {k : Kind} {destination : Option Json} (ho : r.completed = none)
    (hl : Leads (r.copied k index) choice destination) (hnew : recorded given r.results = .ok new)
    (haccept : ∀ v, destination = some v → k.accept [.node v, .wakeup none] = .ok ()) :
    ∃ x y, course k index choice given r.timeless = ⟨.ok x, y⟩ ∧
      Applied id destination new (r.copied k index).timeless x ∧
      Applied k.node destination new r.timeless y := by
  have hcheck : checkInput { r.timeless with index := some index } choice = .ok () := by
    rw [← checkInput_copied (k := k)]
    exact checkInput_of_leads ho hl
  let last : Context := { r.timeless with wakeup := none, results := new }
  have hcourse : course k index choice given r.timeless = advanceCourse k index choice last := by
    have hnew' : recorded given r.timeless.results = .ok new := hnew
    simp only [course, hcheck, recordCourse, hnew']
    rfl
  have hopen : last.completed = none := by
    change r.completed.map _ = none
    rw [ho]
    rfl
  obtain ⟨_, node, hindex, hnode, hdestination, hnext⟩ := hl
  cases hindex
  have hlast : index.lookup? last.node = .ok (some node) := hnode
  cases destination with
  | none =>
    refine ⟨(last.copied k index).ended, last.ended, ?_, ?_, ?_⟩
    · simp only [hcourse, advanceCourse, way, hlast, hdestination, Way.course]
    · exact ⟨rfl, rfl, rfl, rfl, rfl, rfl, rfl, rfl, rfl, rfl, rfl⟩
    · exact ⟨rfl, rfl, rfl, rfl, rfl, rfl, rfl, rfl, rfl, rfl, rfl⟩
  | some v =>
    obtain ⟨next, hfound⟩ := hnext v rfl
    have hended : last.completed.isSome = false := by rw [hopen]; rfl
    refine ⟨{ last.copied k index with node := v, wakeup := none },
      { last with node := k.node v, wakeup := none }, ?_, ?_, ?_⟩
    · simp only [hcourse, advanceCourse, way, hlast, hdestination, hfound, Way.course, haccept v rfl]
    · exact ⟨rfl, rfl, rfl, hended, rfl, rfl, rfl, rfl, rfl, rfl, rfl⟩
    · exact ⟨rfl, rfl, rfl, hended, rfl, rfl, rfl, rfl, rfl, rfl, rfl⟩

theorem deliver_concludes (h : Racing i index [] r e) (ho : r.completed = none)
    (hb : Roomy e.store.kind r 2) (choice given : Json) : Ensures (deliver (some i) choice given) e
      (fun c e' => Concludes i index [] e (course e.store.kind index choice given r.timeless)
        (.ok c.timeless) e')
      (fun f e' => Concludes i index [] e (course e.store.kind index choice given r.timeless)
        (.error f) e') := by
  apply deliver_of_try
  refine (tryInput_reaches choice given h ho hb).mono ?_ fun _ _ hends => hends
  rintro result e' hresult
  cases result with
  | ok c => exact ⟨c, rfl, hresult⟩
  | error f =>
    -- no race is to come, and so none is lost
    obtain ⟨-, r', ⟨rest, hs, -, -⟩, -⟩ := hresult
    cases hs.eq_zero.1

/-- An input at a node that the graph lacks ends the context. -/
theorem course_strays {k : Kind} (hcheck : checkInput (r.copied k index) choice = .ok ())
    (hnode : index.lookup? r.node = .ok none) (hnew : recorded given r.results = .ok new) :
    (course k index choice given r.timeless).answer = .error (.dangling r.id r.node) := by
  have hnew' : recorded given r.timeless.results = .ok new := hnew
  have hnode' : index.lookup? r.timeless.node = .ok none := hnode
  rw [checkInput_copied] at hcheck
  simp only [course, hcheck, recordCourse, hnew', advanceCourse, way, hnode', Way.course]
  rfl

/-! ## Inputs to stored contexts -/

variable {documents : List Json}

theorem Provides.exists_compile {flow : Identifier} {graph : Flow.Graph}
    (hf : Filled documents e.registry) (hp : Provides e flow graph) :
    ∃ d body, Flow.compile d (.object body) = .ok graph := by
  unfold Provides at hp
  cases hc : e.registry.get? flow with
  | some found =>
    rw [hc] at hp
    obtain ⟨_, -, body, d, -, hgraph⟩ := hf.get? hc
    exact ⟨d, body, hp ▸ hgraph⟩
  | none =>
    rw [hc] at hp
    obtain ⟨d, _, body, -, -, -, hgraph⟩ := hp
    exact ⟨d, body, hgraph⟩

private theorem leads_of_checkInput {graph : Flow.Graph} {d : Flow.Definition} {document : Json}
    (hg : Flow.compile d document = .ok graph) (hc : c.index = some graph.index)
    (hcheck : checkInput c choice = .ok ()) :
    graph.index.lookup? c.node = .ok none ∨ ∃ destination, Leads c choice destination := by
  obtain ⟨found, hfound, hexits⟩ := exitAt_of_checkInput hc hcheck
  cases found with
  | none => exact .inl hfound
  | some node =>
    obtain ⟨exit, hexit⟩ := hexits node rfl
    have hdestination := Flow.Node.destination_eq_ok.mpr ⟨exit, hexit, rfl⟩
    refine .inr ⟨exit.destination, graph.index, node, hc, hfound, hdestination, ?_⟩
    intro v hv
    exact Flow.compile_next hg hfound (hv ▸ hdestination)

/-- Whether a store can hold the versions and the name of a node that an input writes. Only columns
cannot hold all of them. -/
structure HoldsInput (e : Engine) (i : String) (choice : Json) : Prop where
  versions : ∀ r, e.store.row? i = some r → Roomy e.store.kind r 2
  destinations : ∀ c v, LoadsAs e i c → Leads c choice (some v) →
    e.store.kind.accept [.node v, .wakeup none] = .ok ()

theorem HoldsInput.of_kind (h : e.store.kind ≠ .rows) : HoldsInput e i choice := by
  refine ⟨fun r _ hk => absurd hk h, fun c v _ _ => ?_⟩
  cases hk : e.store.kind with
  | rows => exact absurd hk h
  | _ => rfl

private theorem deliver_applies (he : e.Ready) (hu : CanWrite e) (hfits : HoldsInput e i choice)
    (hr : e.store.row? i = some r) (ho : r.completed = none) (hc : LoadsAs e i c)
    {destination : Option Json} (hl : Leads c choice destination)
    (hnew : recorded given r.results = .ok new) : Ensures (deliver (some i) choice given) e
      (fun c' e' => ∃ r', e'.store.row? i = some r' ∧
        Applied e.store.kind.node destination new r r' ∧ Applied id destination new c c')
      (fun _ _ => False) := by
  obtain ⟨r', index, hracing, rfl⟩ := Racing.of_loadsAs he hu.contested hc
  cases hr.symm.trans hracing.row
  obtain ⟨x, y, hcourse, hcopy, hrow⟩ := course_applies ho hl hnew
    fun v hv => hfits.destinations _ v hc (hv ▸ hl)
  refine (deliver_concludes hracing ho (hfits.versions r hr) choice given).mono ?_ ?_
  · rintro c' e' ⟨r', ⟨_, -, hreached, -⟩, hends⟩
    cases hcourse.symm.trans hends
    exact ⟨r', hreached.row, hrow.of_timeless, hcopy.of_timeless⟩
  · rintro f e' ⟨_, -, hends⟩
    cases hcourse.symm.trans hends

private theorem deliver_leaves (he : e.Ready) (hu : CanWrite e)
    (hfilled : Filled documents e.registry) (hfits : HoldsInput e i choice) (hc : LoadsAs e i c)
    (hfails : deliver (some i) choice (.object values) e = .error f e')
    (hdangling : ∀ id node, f ≠ .dangling id node) : e'.store = e.store ∨
      ∃ r, e.store.row? i = some r ∧ r.wakeup ≠ none ∧ HalfApplied i r e'.store ∧
        recorded (.object values) r.results = .error f := by
  obtain ⟨r, index, hracing, rfl⟩ := Racing.of_loadsAs he hu.contested hc
  have hr := hracing.row
  cases hcheck : checkInput (r.copied e.store.kind index) choice with
  | error _ => exact .inl ((deliver_unchecked he hu hc hcheck).of_eq_error hfails)
  | ok _ =>
    have ho : r.completed = none := by
      simpa [Context.isCompleted, Context.copied] using isOpen_of_checkInput hcheck
    cases hnew : recorded (.object values) r.results with
    | error _ =>
      have hrefuses := deliver_refuses he hu hr hc hcheck (hfits.versions r hr).expectable hnew
      obtain ⟨rfl, hleft⟩ := hrefuses.of_eq_error hfails
      unfold LeavesRefused at hleft
      split at hleft
      · exact .inl hleft
      · rename_i hwaits
        exact .inr ⟨r, hr, hwaits, hleft, hnew⟩
    | ok new =>
      obtain ⟨graph, hprovides, rfl⟩ := hracing.provides
      obtain ⟨d, body, hgraph⟩ := hprovides.exists_compile hfilled
      obtain hlacks | ⟨destination, hl⟩ := leads_of_checkInput hgraph rfl hcheck
      · have hconcludes := deliver_concludes hracing ho (hfits.versions r hr) choice (.object values)
        obtain ⟨r', -, hcourse⟩ := hconcludes.of_eq_error hfails
        have hanswer := (congrArg Course.answer hcourse).symm.trans (course_strays hcheck hlacks hnew)
        exact absurd (Except.error.inj hanswer) (hdangling r.id r.node)
      · exact ((deliver_applies he hu hfits hr ho hc hl hnew).of_eq_error hfails).elim

/-- Where nobody else writes and nothing fails, an input to an open context takes an exit that leads on in
the graph of its flow or to its end: the row and the copy that is returned have the results merged into
their own, wait no longer, and stand behind the exit or have ended. If a name in the results is reserved
it fails instead, and a row that was waiting waits no longer. Whatever the context and the exit, an input
that fails otherwise than for a node that the graph lacks has left the store as it was, or it was given
results that could not be recorded and has ended the wait of the row. -/
theorem input_applies_or_refuses (he : e.Ready) (hu : CanWrite e)
    (hfilled : Filled documents e.registry) (hfits : HoldsInput e i choice) (values : List (String × Json)) :
    (∀ r c old destination, e.store.row? i = some r → r.completed = none → r.results = .object old →
      LoadsAs e i c → Leads c choice destination →
      match reserved? values with
      | none => ∃ c' e' r', deliver (some i) choice (.object values) e = .ok c' e' ∧
          e'.store.row? i = some r' ∧
          Applied e.store.kind.node destination (.object (Table.merge old values)) r r' ∧
          Applied id destination (.object (Table.merge old values)) c c'
      | some name => ∃ e', deliver (some i) choice (.object values) e =
          .error (.reservedName name) e' ∧ LeavesRefused i r e.store e'.store) ∧
    ∀ f e', deliver (some i) choice (.object values) e = .error f e' →
      (∀ id node, f ≠ .dangling id node) → e'.store = e.store ∨
        ∃ r, e.store.row? i = some r ∧ r.wakeup ≠ none ∧ HalfApplied i r e'.store ∧
          (reserved? values ≠ none ∨ ∀ old, r.results ≠ .object old) := by
  constructor
  · intro r c old destination hr ho hold hc hl
    obtain ⟨r', graph, hr', -, hcopy, -⟩ := hc.row he.sound
    cases hr.symm.trans hr'
    cases hname : reserved? values with
    | none =>
      have hnew := recorded_of_free hname old
      rw [← hold] at hnew
      have happlies := deliver_applies he hu hfits hr ho hc hl hnew
      cases hdone : deliver (some i) choice (.object values) e with
      | ok c' e' =>
        obtain ⟨r', hrow, happlied⟩ := happlies.of_eq_ok hdone
        exact ⟨c', e', r', rfl, hrow, happlied⟩
      | error f e' => exact (happlies.of_eq_error hdone).elim
    | some name =>
      have hcheck := checkInput_of_leads (by rw [hcopy]; exact ho) hl
      have hrefuses := deliver_refuses he hu hr hc hcheck (hfits.versions r hr).expectable
        (recorded_of_reserved hname r.results)
      cases hdone : deliver (some i) choice (.object values) e with
      | ok c' e' => exact (hrefuses.of_eq_ok hdone).elim
      | error f e' =>
        obtain ⟨rfl, hleft⟩ := hrefuses.of_eq_error hdone
        exact ⟨e', rfl, hleft⟩
  · intro f e' hfails hdangling
    by_cases hloads : ∃ c, LoadsAs e i c
    · obtain ⟨c, hc⟩ := hloads
      obtain hkept | ⟨r, hr, hwaits, hhalf, hnew⟩ := deliver_leaves he hu hfilled hfits hc hfails hdangling
      · exact .inl hkept
      · refine .inr ⟨r, hr, hwaits, hhalf, ?_⟩
        by_contra hplain
        obtain ⟨hfree, hold⟩ := not_or.mp hplain
        obtain ⟨old, hold⟩ := not_forall_not.mp hold
        exact recorded_ne_error (not_not.mp hfree) hold f hnew
    · exact .inl ((deliver_unloaded he hu hloads).of_eq_error hfails)

/-! ## A parked context -/

private def sketch : List (String × Json) :=
  [("nodes", .array [
    .object [("uuid", .string "n1"), ("exits", .array [
      .object [("uuid", .string "e1"), ("destination_uuid", .string "n2")]])],
    .object [("uuid", .string "n2")]])]

private def sketchedNodes : List Flow.Node :=
  [⟨.string "n1", [], [⟨.string "e1", some (.string "n2")⟩], none⟩, ⟨.string "n2", [], [], none⟩]

private def sketchedFlow : Flow.Definition :=
  { id := some 1, uuid := none, shortcode := none, name := none, language := none, kind := .message,
    format := none, revisions := [] }

private def sketched : Flow.Graph := Flow.graphOf sketchedFlow sketch sketchedNodes [] []

private theorem compile_sketch : Flow.compile sketchedFlow (.object sketch) = .ok sketched := by
  refine Flow.compile_eq_ok.mpr ⟨sketch, _, sketchedNodes, [], [], rfl, rfl, ?_, ?_, rfl, rfl⟩
  · decide
  · decide

private def parked : Engine :=
  let t := Moment.utc 0
  let row : Context := ⟨some (freshId 1), .int 7, 1, none, .string "n1", none, some (Moment.utc 9000000),
    none, .object [("b", .int 2)], 1, t, t, none⟩
  let store : Store := .memory { Store.Memory.empty with contexts := [(freshId 1, row)] }
  { Engine.ofStore store ⟨.int 3, .int 5, .int 200, .int 2⟩ (.int 10) 0 with
    drawn := 1, registry := Registry.empty.insert ⟨0, sketched⟩ }

private theorem ready_parked : parked.Ready := ready_of_single rfl rfl rfl rfl rfl (Nat.le_refl 1)

private theorem canWrite_parked : CanWrite parked := ⟨rfl, rfl, _, rfl⟩

private theorem filled_parked : Filled [.object sketch] parked.registry := by
  refine Filled.insert .empty ⟨_, List.mem_cons_self, sketch, sketchedFlow, ?_, compile_sketch⟩
  decide

private def parkedCopy : Context :=
  let t := Moment.utc 0
  ⟨some (freshId 1), .int 7, 1, none, .string "n1", none, some (Moment.utc 9000000), none,
    .object [("b", .int 2)], 1, t, t, some sketched.index⟩

private theorem loadsAs_parked : LoadsAs parked (freshId 1) parkedCopy := ⟨_, sketched, rfl, rfl, rfl⟩

private theorem leads_parked : Leads parkedCopy (.int 0) (some (.string "n2")) := by
  refine ⟨sketched.index, _, rfl, rfl, rfl, ?_⟩
  rintro _ ⟨⟩
  exact ⟨_, rfl⟩

/-- A result of another name is recorded, and the row moves on; one of the name `context` is refused, and
the row waits no longer. -/
theorem input_applies_or_refuses_parked :
    let e := parked
    let deliverZero := fun values => deliver (some (freshId 1)) (.int 0) (.object values) e
    ∃ r c, e.Ready ∧ CanWrite e ∧ Filled [.object sketch] e.registry ∧ HoldsInput e (freshId 1) (.int 0) ∧
      e.store.row? (freshId 1) = some r ∧ r.completed = none ∧ r.wakeup ≠ none ∧
      r.results = .object [("b", .int 2)] ∧ LoadsAs e (freshId 1) c ∧
      Leads c (.int 0) (some (.string "n2")) ∧
      (∃ c' e' r', deliverZero [("a", .int 1)] = .ok c' e' ∧ e'.store.row? (freshId 1) = some r' ∧
        r'.results = .object [("b", .int 2), ("a", .int 1)] ∧ r'.wakeup = none ∧
        r'.node = .string "n2") ∧
      ∃ e', deliverZero [("context", .int 1)] = .error (.reservedName "context") e' ∧
        HalfApplied (freshId 1) r e'.store := by
  intro e deliverZero
  have hf : HoldsInput e (freshId 1) (.int 0) := .of_kind fun h => by cases h
  have happlies values := (input_applies_or_refuses ready_parked canWrite_parked filled_parked hf values).1
    _ _ _ _ rfl rfl rfl loadsAs_parked leads_parked
  refine ⟨_, parkedCopy, ready_parked, canWrite_parked, filled_parked, hf, rfl, rfl,
    Option.some_ne_none _, rfl, loadsAs_parked, leads_parked, ?_, ?_⟩
  · have hfree : reserved? [("a", Json.int 1)] = none := by decide
    have hdone := happlies [("a", .int 1)]
    rw [hfree] at hdone
    obtain ⟨c', e', r', hdelivered, hrow, happlied, -⟩ := hdone
    exact ⟨c', e', r', hdelivered, hrow, happlied.results, happlied.wakeup, happlied.node⟩
  · have hname : reserved? [("context", Json.int 1)] = some "context" := by decide
    have hdone := happlies [("context", .int 1)]
    rw [hname] at hdone
    obtain ⟨e', hdelivered, hleft⟩ := hdone
    exact ⟨e', hdelivered, hleft⟩

/-- The input has an exit to take, and yet it fails, and not for a node that the graph lacks; and the row is
not what it was. -/
theorem reserved_name_halves_input :
    let e := parked
    let outcome := deliver (some (freshId 1)) (.int 0) (.object [("context", .int 1)]) e
    e.Ready ∧ CanWrite e ∧
      (∃ r c, e.store.row? (freshId 1) = some r ∧ r.completed = none ∧
        LoadsAs e (freshId 1) c ∧ Leads c (.int 0) (some (.string "n2"))) ∧
      Outcome.answer outcome = .error (.reservedName "context") ∧
      (Outcome.engine outcome).store.row? (freshId 1) ≠ e.store.row? (freshId 1) := by
  intro e outcome
  refine ⟨ready_parked, canWrite_parked, ⟨_, parkedCopy, rfl, rfl, loadsAs_parked, leads_parked⟩,
    ?_, ?_⟩
  · decide
  · decide

end DurableFlow.Engine
