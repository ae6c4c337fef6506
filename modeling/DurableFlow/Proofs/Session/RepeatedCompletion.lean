import DurableFlow.Proofs.Engine.SuccessfulTransitions
import DurableFlow.Proofs.Session.CompletedContexts

/-! Repeated completion. A holder whose copy is still open can complete a context that is completed
already: this is told apart here from all that leaves a completed context alone. -/
namespace DurableFlow.Session
open DurableFlow.Action (Ensures)
open Engine (Abreast Handled Handles Undisturbed)
open Store (Closes Coherent completedAgain)
variable {i : String} {r : Context} {c : Context} {s : Session} {use : Use} {copy : Nat}

/-- How often open copies of a context are completed in the course of some requests. -/
def closings (i : String) (s : Session) : List Request → Nat
  | [] => 0
  | q :: rest =>
    (if closesCopy i s (q.perform s).2 then 1 else 0) + (q.perform s).2.closings i rest

def Use.isTransition : Use → Bool
  | .advance _ | .suspend _ | .resume | .complete => true
  | _ => false

def Use.mayFinish : Use → Bool
  | .advance _ | .complete | .exit => true
  | _ => false

/-! ## Which requests close a copy -/

private theorem copies_beside (act : Run (List Context)) :
    ∃ handed, (s.beside act).2.copies = s.copies ++ handed := by
  unfold Session.beside
  split
  · exact ⟨_, rfl⟩
  · exact ⟨[], (List.append_nil _).symm⟩

private theorem not_closes_beside (act : Run (List Context)) :
    closesCopy i s (s.beside act).2 ≠ true := by
  obtain ⟨handed, h⟩ := copies_beside (s := s) act
  rw [closesCopy_beside h]
  exact Bool.false_ne_true

private theorem mayFinish_of_does {time : Moment} (h : use.Does (.finish time)) :
    use.mayFinish = true := by
  cases use with
  | advance | complete | exit => rfl
  | bind | suspend | resume | record => cases h
  | enter =>
    obtain ⟨_, h⟩ := h
    cases h

private theorem closes_of_through (hs : s.Sound)
    (h : closesCopy i s (s.through copy use.act).2 = true) :
    ∃ c, s.copies[copy]? = some c ∧ c.id = some i ∧ c.completed = none ∧ use.mayFinish = true := by
  cases hc : s.copies[copy]? with
  | none =>
    rw [through_of_none hc, closesCopy_beside (List.append_nil _).symm] at h
    cases h
  | some c =>
    obtain ⟨c', handed, ⟨_, m, ha, _⟩, hcopies, _⟩ := through_passed hs.ready hc use
    have hcl : Closes i c c' := (closesCopy_through hc hcopies).mp h
    obtain ⟨time, hfinish⟩ := ha.finishes (i := i) hcl
    exact ⟨c, rfl, hcl.1, hcl.2.1, mayFinish_of_does hfinish⟩

/-- A copy is closed by a request through it that may finish, and by no other request. -/
theorem request_of_closesCopy (hs : s.Sound) {q : Request}
    (h : closesCopy i s (q.perform s).2 = true) :
    ∃ copy use c, q = .call (.through copy use) ∧ s.copies[copy]? = some c ∧ c.id = some i ∧
      c.completed = none ∧ use.mayFinish = true := by
  cases q with
  | call call =>
    cases call with
    | through copy use =>
      obtain ⟨c, hc, hid, ho, hfinish⟩ := closes_of_through hs h
      exact ⟨copy, use, c, rfl, hc, hid, ho, hfinish⟩
    | meanwhile change quiet =>
      have hno : closesCopy i s ((Call.meanwhile change quiet).perform s).2 = false :=
        closesCopy_beside (List.append_nil _).symm
      exact absurd h (by rw [Request.perform, hno]; exact Bool.false_ne_true)
    | start | load | read | due | children | ofContact | tick =>
      exact absurd h (not_closes_beside _)
  | startFlow | deliver | cancel | suspendById | enterById | exitById =>
    exact absurd h (not_closes_beside _)

/-! ## Transitions of a completed context -/

private theorem not_abreast (hc : Coherent s.engine.store c.unbound) (hid : c.id = some i)
    (hr : s.engine.store.row? i = some r) (hcompleted : r.completed ≠ none) :
    ¬ Abreast s.engine.store c := by
  rintro ⟨ho, j, r', hid', hr', hv⟩
  rw [hid] at hid'
  cases hid'
  rw [hr] at hr'
  cases hr'
  obtain ⟨_, hm⟩ := (hc ho).row hid hr
  exact hcompleted ((hm hv).completed_eq_none.mpr ho)

private theorem transition_handles {e : Engine} (he : e.Ready) (hu : use.isTransition = true) :
    Handles use.Does e c use.act := by
  cases use with
  | advance choice => exact (Engine.advance_handles he choice).bind_idle fun _ => .pure _
  | suspend wakeup => exact (Engine.suspend_handles he wakeup).bind_idle fun _ => .pure _
  | resume => exact (Engine.resume_handles he).bind_idle fun _ => .pure _
  | complete => exact (Engine.complete_handles he).bind_idle fun _ => .pure _
  | bind | record | enter | exit => cases hu

private theorem transition_ensures {e : Engine} (he : e.Ready) (hu : use.isTransition = true) :
    Ensures use.act ⟨e, c⟩
      (fun _ g => Abreast e.store c ∨ use = .complete ∧ c.completed = none ∧ g.held.completed ≠ none)
      (fun _ g => use = .complete → Undisturbed e c g) := by
  cases use with
  | advance choice =>
    apply Ensures.bind
    refine Ensures.mono (Engine.advance_requires he choice) ?_ (fun _ _ _ h => Use.noConfusion h)
    exact fun _ _ ha => Ensures.pure (.inl ha)
  | suspend wakeup =>
    apply Ensures.bind
    refine Ensures.mono (Engine.suspend_requires he wakeup) ?_ (fun _ _ _ h => Use.noConfusion h)
    exact fun _ _ ha => Ensures.pure (.inl ha)
  | resume =>
    apply Ensures.bind
    refine Ensures.mono (Engine.resume_requires he) ?_ (fun _ _ _ h => Use.noConfusion h)
    exact fun _ _ ha => Ensures.pure (.inl ha)
  | complete =>
    apply Ensures.bind
    refine (Engine.complete_outcome he).mono ?_ (fun _ _ hd _ => hd)
    exact fun _ _ hclosed => Ensures.pure (.inr ⟨rfl, hclosed⟩)
  | bind | record | enter | exit => cases hu

private theorem transition_iff (hs : s.Sound) (hc : s.copies[copy]? = some c) (hid : c.id = some i)
    (hr : s.engine.store.row? i = some r) (hcompleted : r.completed ≠ none)
    (hu : use.isTransition = true) :
    ((s.through copy use.act).1.isOk = true ↔
      use = .complete ∧ closesCopy i s (s.through copy use.act).2 = true) ∧
    ((s.through copy use.act).2.engine.store = s.engine.store ↔
      closesCopy i s (s.through copy use.act).2 = false) := by
  have hun := hs.coherent_unbound hc
  have hhandles : Ensures use.act ⟨s.engine, c⟩ (fun _ g => Handled use.Does s.engine c g)
      (fun _ g => Handled use.Does s.engine c g) := transition_handles hs.ready hu
  have hensures := transition_ensures (c := c) hs.ready hu
  have hstore (g : Holding Engine Context) (hh : Handled use.Does s.engine c g) :
      g.state.store = s.engine.store ↔ ¬ Closes i c g.held :=
    hh.acted.eq_iff_of_completed hun hid hr hcompleted
  cases ho : use.act ⟨s.engine, c⟩ with
  | ok handed g =>
    rw [through_of_ok hc ho, Bool.eq_false_iff, ne_eq, closesCopy_through hc rfl]
    refine ⟨?_, hstore g (hhandles.of_eq_ok ho)⟩
    rcases hensures.of_eq_ok ho with ha | ⟨huse, hopen, hclosed⟩
    · exact absurd ha (not_abreast hun hid hr hcompleted)
    · exact ⟨fun _ => ⟨huse, hid, hopen, hclosed⟩, fun _ => rfl⟩
  | error f g =>
    have hcopies : s.copies.set copy g.held = s.copies.set copy g.held ++ [] :=
      (List.append_nil _).symm
    rw [through_of_error hc ho, Bool.eq_false_iff, ne_eq, closesCopy_through hc hcopies]
    refine ⟨?_, hstore g (hhandles.of_eq_error ho)⟩
    refine ⟨fun hok => Bool.noConfusion hok, ?_⟩
    rintro ⟨huse, _, hopen, hclosed⟩
    have hheld := (hensures.of_eq_error ho huse).completed
    exact absurd (hheld.trans hopen) hclosed

/-! ## Runs -/

private theorem version_run (hs : s.Sound) (hr : s.engine.store.row? i = some r)
    (hcompleted : r.completed ≠ none) (requests : List Request) :
    ∃ r', (s.run requests).engine.store.row? i = some r' ∧
      r'.version = r.version + s.closings i requests ∧ (s.closings i requests = 0 → r' = r) := by
  induction requests generalizing s r with
  | nil => exact ⟨r, hr, (Int.add_zero _).symm, fun _ => rfl⟩
  | cons q rest ih =>
    have hstep := (perform_stepped hs.ready q).completed_row hs hr hcompleted
    obtain ⟨hno, hrow⟩ | ⟨hcloses, time, now, hrow⟩ := hstep
    · obtain ⟨r', hr', hv, he⟩ := ih (hs.perform q) hrow hcompleted
      have hcount : s.closings i (q :: rest) = (q.perform s).2.closings i rest := by
        simp [closings, hno]
      exact ⟨r', hr', hcount ▸ hv, hcount ▸ he⟩
    · have hagain : (completedAgain s.engine.store.kind time now r).completed ≠ none :=
        fun hnone => by cases hnone
      obtain ⟨r', hr', hv, _⟩ := ih (hs.perform q) hrow hagain
      have hcount : s.closings i (q :: rest) = 1 + (q.perform s).2.closings i rest := by
        simp [closings, hcloses]
      have hnext : (completedAgain s.engine.store.kind time now r).version = r.version + 1 := rfl
      exact ⟨r', hr', by omega, fun hzero => by omega⟩

/-- Of a context that is completed at some point of a run, the version counts from then on how often
open copies of it have been completed; nothing else ever writes to its row. Only an advance, a
completion or an exit through such a copy does so. An advance, a suspension or a resumption of the
completed context always fails, and a completion unless it closes a copy; and they write nothing
exactly when no copy is closed. -/
theorem completed_once_iff (hs : s.Fresh) (before after : List Request)
    (hr : (s.run before).engine.store.row? i = some r) (hcompleted : r.completed ≠ none) :
    let t := s.run before
    (∃ r', (t.run after).engine.store.row? i = some r' ∧
      r'.version = r.version + t.closings i after ∧ (r' = r ↔ t.closings i after = 0)) ∧
    (∀ q : Request, closesCopy i t (q.perform t).2 = true → ∃ copy use c,
      q = .call (.through copy use) ∧ t.copies[copy]? = some c ∧ c.id = some i ∧
        c.completed = none ∧ use.mayFinish = true) ∧
    (∀ (copy : Nat) (c : Context) (use : Use), t.copies[copy]? = some c → c.id = some i →
      use.isTransition = true →
        let (answer, t') := (Call.through copy use).perform t
        (answer.isOk = true ↔ use = .complete ∧ closesCopy i t t' = true) ∧
        (t'.engine.store = t.engine.store ↔ closesCopy i t t' = false)) := by
  intro t
  have ht : t.Sound := hs.sound.run before
  refine ⟨?_, ?_, ?_⟩
  · obtain ⟨r', hr', hv, he⟩ := version_run ht hr hcompleted after
    refine ⟨r', hr', hv, ?_, he⟩
    rintro rfl
    omega
  · intro q hq
    exact request_of_closesCopy ht hq
  · intro copy c use hc hid hu
    exact transition_iff ht hc hid hr hcompleted hu

/-- A late holder advances in vain, and then completes the context for the second time. -/
theorem completed_once_iff_late :
    let before : List Request := [.call (.start oneNode (.int 7) none),
      .call (.ofContact (.int 7) true), .call (.through 0 (.advance (.int 0)))]
    let after : List Request := [.call (.through 1 (.advance (.int 0))),
      .call (.through 1 .complete), .call (.through 1 .complete)]
    let i := Engine.freshId 1
    let t := inMemory.run before
    t.closings i after = 1 ∧ ∃ r r', t.engine.store.row? i = some r ∧ r.completed ≠ none ∧
      (t.run after).engine.store.row? i = some r' ∧ r'.version = r.version + 1 ∧
      ((Call.through 1 (.advance (.int 0))).perform t).1.isOk ≠ true := by
  intro before after i t
  have hclosings : t.closings i after = 1 := by decide +kernel
  have hrow : (t.engine.store.row? i).any Context.isCompleted = true := by decide +kernel
  have hcopy : (t.copies[1]?).any (fun c => c.id = some i) = true := by decide +kernel
  obtain ⟨r, hr, hcompleted⟩ := (Option.any_eq_true _ _).mp hrow
  obtain ⟨c, hc, hid⟩ := (Option.any_eq_true _ _).mp hcopy
  have hne : r.completed ≠ none := Option.isSome_iff_ne_none.mp hcompleted
  obtain ⟨⟨r', hr', hv, _⟩, _, htransition⟩ :=
    completed_once_iff fresh_inMemory before after hr hne
  have hversion : r'.version = r.version + t.closings i after := hv
  rw [hclosings] at hversion
  refine ⟨hclosings, r, r', hr, hne, hr', hversion, ?_⟩
  intro hok
  obtain ⟨hanswer, _⟩ := htransition 1 c (.advance (.int 0)) hc (of_decide_eq_true hid) rfl
  exact Use.noConfusion (hanswer.mp hok).1

/-- A context is completed twice: the second completion, through a copy from before the first,
succeeds five seconds later and moves the time, the version and the date of the row. -/
theorem completed_twice :
    let before : List Request := [.call (.start oneNode (.int 7) none),
      .call (.ofContact (.int 7) true), .call (.through 0 .complete),
      .call (.meanwhile (fun e => { e with clock := 5000000 }) fun _ => ⟨rfl, rfl, rfl, rfl⟩)]
    let t := inMemory.run before
    let (answer, t') := (Request.call (.through 1 .complete)).perform t
    answer.isOk = true ∧
      (t.engine.store.row? (Engine.freshId 1)).map (fun r => (r.completed, r.version, r.updated)) =
        some (some (Moment.utc 0), 2, Moment.utc 0) ∧
      (t'.engine.store.row? (Engine.freshId 1)).map (fun r => (r.completed, r.version, r.updated)) =
        some (some (Moment.utc 5000000), 3, Moment.utc 5000000) := by
  decide +kernel

end DurableFlow.Session
