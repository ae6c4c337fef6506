import DurableFlow.Proofs.Engine.ConfinedSteps
import DurableFlow.Proofs.Session.CancelledFamilies

/-! Requests that keep to some contexts. Which contexts a request can write to is told by the request,
the copies that it uses and the links of parents; all others stay as they are, but for their waiting. -/
namespace DurableFlow.Session
open DurableFlow.Action (Ensures)
open Engine (Below Confined Discipline HeldConfined IsAmong KeepsTo Wrote parentOf)
open Store (Done KeptOutside)
variable {s : Session} {e : Engine} {t t' t'' : Store} {c c' : Context}

/-! ## What a request touches -/

/-- The contexts that a use of a copy can write to. Only an exit goes beyond the copy's own. -/
def Use.touches (c : Context) : Use → String → Prop
  | .bind, _ => False
  | .exit, j => c.id = some j ∨ c.parent = some j
  | _, j => c.id = some j

/-- The contexts that a request can write to, but for those that it starts, and but for their waiting,
which a tick may end wherever it likes. -/
def Request.touches (s : Session) : Request → String → Prop
  | .call (.through copy use), j => ∃ c, s.copies[copy]? = some c ∧ use.touches c j
  | .call _, _ | .startFlow _ _, _ => False
  | .deliver id _ _, j | .suspendById id _, j | .enterById id _ _, j => j = id
  | .cancel id _, j => ∃ k, Below s.engine.store k id j
  | .exitById id, j => j = id ∨ parentOf s.engine.store id = some j

private theorem beside_kept {T : String → Prop} {act : Run (List Context)}
    (h : Ensures act s.engine (fun _ e => KeepsTo T s.engine e) (fun _ e => KeepsTo T s.engine e)) :
    KeptOutside T s.engine.store (s.beside act).2.engine.store := by
  unfold Session.beside
  split
  · rename_i ho
    exact (h.of_eq_ok ho).kept
  · rename_i ho
    exact (h.of_eq_error ho).kept

private theorem one_kept {T : String → Prop} {act : Run Context}
    (h : Ensures act s.engine (fun _ e => KeepsTo T s.engine e) (fun _ e => KeepsTo T s.engine e)) :
    KeptOutside T s.engine.store (s.beside do return [← act]).2.engine.store := by
  refine beside_kept (Ensures.bind (h.mono ?_ fun _ _ hk => hk))
  intro _ _ hk
  exact Ensures.pure hk

private theorem use_kept (he : e.Ready) (c : Context) (use : Use) : Ensures use.act ⟨e, c⟩
    (fun _ g => KeepsTo (use.touches c) e g.state) (fun _ g => KeepsTo (use.touches c) e g.state) := by
  have hone {α β : Type} {T : String → Prop} {act : OnCopy α} {f : α → β} (h : HeldConfined T act)
      (hc : IsAmong T c) : Ensures (do return f (← act)) ⟨e, c⟩
        (fun _ g => KeepsTo T e g.state) (fun _ g => KeepsTo T e g.state) := by
    apply Ensures.bind
    refine (h e c he hc).mono ?_ fun _ _ hk => hk.1
    intro _ _ hk
    exact Ensures.pure hk.1
  have hown : IsAmong (fun j => c.id = some j) c := fun _ hid => hid
  cases use with
  | bind =>
    apply Ensures.bind
    refine (Engine.bind_idles e c he).mono ?_ fun _ _ hu => .of_eq hu.ready hu.store
    intro _ _ hu
    exact Ensures.pure (.of_eq hu.ready hu.store)
  | advance choice => exact hone (f := fun _ => []) (Engine.advance_confined choice) hown
  | suspend wakeup => exact hone (f := fun _ => []) (Engine.suspend_confined wakeup) hown
  | resume => exact hone (f := fun _ => []) Engine.resume_confined hown
  | complete => exact hone (f := fun _ => []) Engine.complete_confined hown
  | record values => exact hone (f := fun _ => []) (Engine.record_confined values) hown
  | enter flow wakeup => exact hone (f := fun x => [x]) (Engine.enterSubFlow_confined flow wakeup) hown
  | exit =>
    apply Ensures.bind
    refine (Engine.exitSubFlow_confined he (fun _ hid => .inl hid) fun _ hp => .inr hp).mono ?_
      fun _ _ hk => hk
    intro _ _ hk
    exact Ensures.pure hk

private theorem through_kept (he : s.engine.Ready) (copy : Nat) (use : Use) :
    KeptOutside (Request.touches s (.call (.through copy use))) s.engine.store
      (s.through copy use.act).2.engine.store := by
  cases hf : s.copies[copy]? with
  | none =>
    rw [through_of_none hf]
    exact .refl
  | some c =>
    have huse := use_kept he c use
    have hfrom (j : String) (hj : use.touches c j) : Request.touches s (.call (.through copy use)) j :=
      ⟨c, hf, hj⟩
    cases ho : use.act ⟨s.engine, c⟩ with
    | ok handed g =>
      rw [through_of_ok hf ho]
      exact (huse.of_eq_ok ho).kept.mono hfrom
    | error f g =>
      rw [through_of_error hf ho]
      exact (huse.of_eq_error ho).kept.mono hfrom

/-- In a rooted session a request keeps to the contexts that it touches, whatever its answer. -/
theorem perform_kept (hs : Regular rootedness s) (q : Request) :
    KeptOutside (q.touches s) s.engine.store (q.perform s).2.engine.store := by
  obtain ⟨he, hroot⟩ := hs.holds
  have hread {T : String → Prop} {act : Run (List Context)} (h : Engine.Quietly act) :
      KeptOutside T s.engine.store (s.beside act).2.engine.store :=
    beside_kept (Confined.of_quietly h _ he)
  cases q with
  | call call =>
    cases call with
    | start graph contact parent => exact one_kept (Engine.start_confined graph contact parent _ he)
    | load id => exact one_kept (Engine.load_confined id _ he)
    | read id =>
      exact one_kept ((Engine.stored_ensures he id).mono
        (fun _ _ h => .of_eq (he.quiet h.1) h.1.store) fun _ _ h => .of_eq (he.quiet h) h.store)
    | due now limit =>
      exact beside_kept ((Engine.due_ensures he now limit).mono
        (fun _ _ h => .of_eq (he.quiet h.1) h.1.store) fun _ _ h => .of_eq (he.quiet h) h.store)
    | children parent => exact hread (Engine.ask_yields _ _).quietly
    | ofContact contact includeCompleted => exact hread (Engine.ask_yields _ _).quietly
    | through copy use => exact through_kept he copy use
    | tick time limit =>
      refine beside_kept (Ensures.bind ((Engine.tick_confined time limit _ he).mono ?_ fun _ _ h => h))
      intro _ _ h
      exact Ensures.pure h
    | meanwhile change quiet => exact .of_eq (quiet _).store
  | startFlow flow contact => exact one_kept (Engine.startFlow_confined flow contact _ he)
  | deliver id choice results => exact one_kept (Engine.deliver_confined (T := (· = id)) rfl choice results _ he)
  | cancel id cascade => exact one_kept (Engine.cancel_confined he hroot id cascade)
  | suspendById id wakeup => exact one_kept (Engine.suspendById_confined (T := (· = id)) rfl wakeup _ he)
  | enterById id flow wakeup => exact one_kept (Engine.enterById_confined (T := (· = id)) rfl flow wakeup _ he)
  | exitById id =>
    exact one_kept (Engine.exitById_confined he (.inl rfl) fun _ hp => .inr hp)

/-! ## Runs under a condition -/

def Along (ok : Session → Request → Prop) : Session → List Request → Prop
  | _, [] => True
  | s, q :: rest => ok s q ∧ Along ok (q.perform s).2 rest

/-- What every request keeps that meets a condition, a whole run keeps. -/
theorem Along.run_keeps {ok : Session → Request → Prop} {I : Session → Prop}
    (hstep : ∀ s q, I s → ok s q → I (q.perform s).2) {requests : List Request}
    (hq : Along ok s requests) (hs : I s) : I (s.run requests) := by
  induction requests generalizing s with
  | nil => exact hs
  | cons q rest ih => exact ih hq.2 (hstep s q hs hq.1)

/-! ## Copies of children -/

/-- A copy that names the parent of its row, and is closed no earlier than its row. -/
def Heeds (t : Store) (c : Context) : Prop :=
  ∃ i r, c.id = some i ∧ t.row? i = some r ∧ (∀ p, r.parent = some p → c.parent = some p) ∧
    (c.completed ≠ none → r.completed ≠ none)

def RowsLast (t t' : Store) : Prop :=
  ∀ i r, t.row? i = some r → ∃ r', t'.row? i = some r' ∧ r'.parent = r.parent ∧
    (r.completed ≠ none → r'.completed ≠ none)

theorem RowsLast.trans (h : RowsLast t t') (h' : RowsLast t' t'') : RowsLast t t'' := by
  intro i r hr
  obtain ⟨r', hr', hp, hc⟩ := h i r hr
  obtain ⟨r'', hr'', hp', hc'⟩ := h' i r' hr'
  exact ⟨r'', hr'', hp'.trans hp, fun h => hc' (hc h)⟩

theorem RowsLast.parentOf (h : RowsLast t t') {i p : String} (hp : parentOf t i = some p) :
    parentOf t' i = some p := by
  obtain ⟨r, hr, hp⟩ := Option.bind_eq_some_iff.mp hp
  obtain ⟨r', hr', hp', -⟩ := h i r hr
  exact Option.bind_eq_some_iff.mpr ⟨r', hr', hp'.trans hp⟩

private theorem completed_changed (k : Store.Kind) (d : Store.Deed) (results : Json) (now : Moment)
    {r : Context} (hr : r.completed ≠ none) :
    (k.changed (d.changes results) now r).completed ≠ none := by
  cases d with
  | move node => exact hr
  | finish time => exact Option.some_ne_none _
  | park wakeup => exact hr
  | record values => cases results <;> exact hr

private theorem done_heeds {d : Store.Deed} (h : Done d t c.unbound t' c'.unbound)
    (hc : Heeds t c) : RowsLast t t' ∧ Heeds t' c' := by
  have hframe := h.sameFrame
  obtain ⟨i, r, time, updated, hid, _, hch, _, hheld⟩ := h
  obtain ⟨j, rj, hj, hrj, hparent, hclosed⟩ := hc
  cases hid.symm.trans hj
  cases hch.found.symm.trans hrj
  have hp : (t.kind.changed (d.changes c.unbound.results) time r).parent = r.parent :=
    (Context.SameFrame.changed _ _ _ _).parent
  refine ⟨?_, i, _, hframe.id.trans hid, hch.row, ?_, ?_⟩
  · intro x rx hx
    by_cases hxi : x = i
    · cases hxi
      cases hch.found.symm.trans hx
      exact ⟨_, hch.row, hp, completed_changed _ _ _ _⟩
    · exact ⟨rx, (hch.others x hxi).trans hx, rfl, id⟩
  · intro p hrp
    exact hframe.parent.trans (hparent p (hp.symm.trans hrp))
  · intro hc'
    by_cases hd : ∃ v, d = .finish v
    · obtain ⟨v, rfl⟩ := hd
      exact Option.some_ne_none _
    · apply completed_changed
      apply hclosed
      have hsame : c'.unbound.completed = c.unbound.completed := by
        rw [hheld]
        exact Store.Deed.completed_applyAll (fun v hv => hd ⟨v, hv⟩) _ _
      rw [show c.completed = c'.completed from hsame.symm]
      exact hc'

private theorem Heeds.lasts (h : Heeds t c) (hl : RowsLast t t') : Heeds t' c := by
  obtain ⟨i, r, hid, hr, hparent, hclosed⟩ := h
  obtain ⟨r', hr', hp, hc'⟩ := hl i r hr
  exact ⟨i, r', hid, hr', fun p hp' => hparent p (hp.symm.trans hp'), fun hc => hc' (hclosed hc)⟩

private theorem fetch_ready (flow : Identifier) (he : e.Ready) :
    Ensures (Engine.fetch flow) e (fun _ e' => e'.Ready ∧ True) (fun _ e' => e'.Ready) :=
  ((Engine.fetch_yields flow).quietly _ he.alone).mono (fun _ _ hq => ⟨he.quiet hq, trivial⟩)
    (fun _ _ hq => he.quiet hq)

private theorem started_heeds {graph : Flow.Graph} {parent : Option String} {e' : Engine}
    (h : Engine.Started graph parent e c e') :
    e'.Ready ∧ RowsLast e.store e'.store ∧ Heeds e'.store c := by
  obtain ⟨i, hid, hn, hf⟩ := h.filed
  refine ⟨h.ready, ?_, i, _, hid, hf.row, ?_, ?_⟩
  · intro j r hr
    have hne : j ≠ i := by
      rintro rfl
      rw [hn] at hr
      cases hr
    exact ⟨r, (hf.others j hne).trans hr, rfl, id⟩
  · intro p hp
    simp only [Store.Kind.filed] at hp
    split at hp
    · exact (Option.filter_eq_some_iff.mp hp).1
    · exact hp
  · intro hc
    simpa [Store.Kind.filed] using hc

def heeding : Discipline where
  Holds := Engine.Ready
  Keeps := Heeds
  Grows _ := RowsLast
  Finds _ _ := True
  Knows _ := True
  Parents _ _ := True
  Fails _ _ := True
  ready h := h
  same _ hr _ _ := hr
  refl _ _ r hr := ⟨r, hr, rfl, id⟩
  trans h h' := h.trans h'
  keeps h hc := hc.lasts h
  named h := by
    obtain ⟨i, _, hid, _⟩ := h
    exact ⟨i, hid⟩
  orphan _ := trivial
  parent _ := trivial
  fails _ := trivial
  finds flow h := fetch_ready flow h
  knows _ := trivial
  reads _ hc := by
    obtain ⟨i, r, hid, hr, rfl⟩ := hc
    exact ⟨i, r, hid, hr, fun _ hp => hp, id⟩
  binds h _ := h
  settles _ hc _ hw := ⟨hw.ready, done_heeds hw.done hc⟩
  advances _ hc _ _ _ _ hw := ⟨hw.ready, done_heeds hw.done hc⟩
  dangles _ _ _ := trivial
  files _ _ _ hst := started_heeds hst

/-! ## Orderly sessions -/

structure WellKept (s : Session) : Prop where
  rooted : Regular rootedness s
  heeding : Regular heeding s

abbrev HasStoredParent (s : Session) (q : Request) : Prop := Permits rootedness s q

private theorem permits_heeding (q : Request) : Permits heeding s q := by
  cases q with
  | call call =>
    cases call with
    | start _ _ _ => exact ⟨trivial, trivial⟩
    | meanwhile change quiet => exact fun hr => hr.quiet (quiet _)
    | _ => trivial
  | _ => trivial

theorem Fresh.orderly (hs : s.Fresh) : WellKept s := by
  refine ⟨hs.rooted, hs.sound.ready, ?_⟩
  intro c hc
  rw [hs.unheld] at hc
  cases hc

theorem WellKept.perform (hs : WellKept s) {q : Request} (hq : HasStoredParent s q) :
    WellKept (q.perform s).2 ∧ RowsLast s.engine.store (q.perform s).2.engine.store := by
  have hheeding := perform_answered hs.heeding q (permits_heeding q)
  exact ⟨⟨(perform_answered hs.rooted q hq).regular, hheeding.regular⟩, hheeding.grows⟩

theorem WellKept.run (hs : WellKept s) {requests : List Request} (hq : Along HasStoredParent s requests) :
    WellKept (s.run requests) :=
  hq.run_keeps (fun _ _ h hq => (h.perform hq).1) hs

end DurableFlow.Session
