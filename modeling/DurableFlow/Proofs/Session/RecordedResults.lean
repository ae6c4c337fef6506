import DurableFlow.Proofs.Session.Requests

/-! Recorded results. A recording writes the whole of the results, merged by a holder who may know
only an older state of them; yet what is stored is what all recordings that succeeded make of it. -/
namespace DurableFlow.Session
open DurableFlow.Action (Ensures)
open Engine (Passed Undisturbed Unrecorded)
open Store (Acted Coherent Deed Done Evolves Refinished)
variable {D : Deed → Prop} {i : String} {old values : List (String × Json)} {s : Session}
  {t t' : Store} {c c' : Context}

/-- The values that a call records on a context: those of a recording through a copy of it, when
the call succeeds. -/
def recorded? (i : String) (s : Session) : Call → Option (List (String × Json))
  | .through copy (.record values) =>
    if s.copies[copy]?.bind Context.id = some i ∧
        ((Call.through copy (.record values)).perform s).1.isOk then some values
    else none
  | _ => none

def recordings (i : String) (s : Session) : List Call → List (List (String × Json))
  | [] => []
  | call :: rest => (s.recorded? i call).toList ++ (call.perform s).2.recordings i rest

/-- The row of a context has these results; while there is no row there are none. -/
structure HasResults (i : String) (old : List (String × Json)) (t : Store) : Prop where
  row : ∀ r, t.row? i = some r → r.results = .object old
  absent : t.row? i = none → old = []

private theorem HasResults.evolves (h : HasResults i old t) (hv : Evolves Unrecorded t t') :
    HasResults i old t' := by
  constructor
  · intro r' hr'
    cases hr : t.row? i with
    | none =>
      obtain ⟨r, hb, hl⟩ := hv.new i r' hr hr'
      rw [hl.results fun _ hd => hd, hb.results, h.absent hr]
    | some r =>
      obtain ⟨r₂, hr₂, hl⟩ := hv.kept i r hr
      rw [hr'] at hr₂
      cases hr₂
      rw [hl.results fun _ hd => hd, h.row r hr]
  · intro hn'
    cases hr : t.row? i with
    | none => exact h.absent hr
    | some r =>
      obtain ⟨r', hr', _⟩ := hv.kept i r hr
      rw [hn'] at hr'
      cases hr'

private theorem HasResults.refinished (h : HasResults i old t) (hr : Refinished t c t' c') :
    HasResults i old t' := by
  obtain ⟨j, r, time, now, _, _, _, hch⟩ := hr
  by_cases hj : i = j
  · subst hj
    constructor
    · intro r' hr'
      rw [hch.row] at hr'
      cases hr'
      exact h.row r hch.found
    · intro hn'
      rw [hch.row] at hn'
      cases hn'
  · constructor
    · intro r' hr'
      exact h.row r' (hch.others i hj ▸ hr')
    · intro hn'
      exact h.absent (hch.others i hj ▸ hn')

private theorem HasResults.acted (h : HasResults i old t) (ha : Acted D t c t' c') (hc : Coherent t c)
    (hD : ∀ d, D d → Unrecorded d) : HasResults i old t' := by
  rcases ha.evolves_or hc with hv | hr
  · exact h.evolves (hv.mono hD)
  · exact h.refinished hr

private theorem HasResults.done (h : HasResults i old t) (hd : Done (.record values) t c t' c')
    (hc : Coherent t c) :
    HasResults i (if c.id = some i then Table.merge old values else old) t' := by
  obtain ⟨j, r, time, updated, hid, ho, hch, hv | ⟨_, hf⟩, _⟩ := hd
  · obtain ⟨_, hm⟩ := (hc ho).row hid hch.found
    have hresults := (hm hv).results
    by_cases hj : j = i
    · subst hj
      rw [if_pos hid]
      constructor
      · intro r' hr'
        rw [hch.row, ← hresults, h.row r hch.found] at hr'
        cases hr'
        rfl
      · intro hn'
        rw [hch.row] at hn'
        cases hn'
    · rw [if_neg (by rw [hid]; exact fun he => hj (Option.some.inj he))]
      have hother := hch.others i (Ne.symm hj)
      exact ⟨fun r' hr' => h.row r' (hother ▸ hr'), fun hn' => h.absent (hother ▸ hn')⟩
  · cases hf

private theorem HasResults.stepped {s' : Session} (h : HasResults i old s.engine.store) (hs : s.Sound)
    (hst : Stepped D s s') (hD : ∀ d, D d → Unrecorded d) : HasResults i old s'.engine.store := by
  cases hst with
  | beside moves _ _ => exact h.evolves (moves.evolves.mono hD)
  | through found passed _ _ =>
    obtain ⟨_, m, ha, hv⟩ := passed
    exact (h.acted ha (hs.coherent_unbound found) hD).evolves hv

private theorem unrecorded_of_does {call : Call}
    (hcall : ¬ ∃ copy values, call = .through copy (.record values)) (d : Deed)
    (hd : (Request.call call).Does d) : Unrecorded d := by
  cases call with
  | through copy use =>
    cases use with
    | bind => cases hd
    | advance choice =>
      obtain ⟨_, rfl⟩ | ⟨_, rfl⟩ := hd
      · rfl
      · rfl
    | suspend wakeup => exact Engine.unrecorded_of_park d ⟨wakeup, hd⟩
    | resume => exact Engine.unrecorded_of_park d ⟨none, hd⟩
    | complete | exit => exact Engine.unrecorded_of_finish d hd
    | enter => exact Engine.unrecorded_of_park d hd
    | record values => exact absurd ⟨copy, values, rfl⟩ hcall
  | start | load | read | due | children | ofContact | tick | meanwhile => exact hd

private theorem recorded?_eq_none {call : Call}
    (hcall : ¬ ∃ copy values, call = .through copy (.record values)) :
    s.recorded? i call = none := by
  unfold recorded?
  split
  · exact absurd ⟨_, _, rfl⟩ hcall
  · rfl

private theorem HasResults.record (h : HasResults i old s.engine.store) (hs : s.Sound) (copy : Nat)
    (values : List (String × Json)) :
    HasResults i ((s.recorded? i (.through copy (.record values))).toList.foldl Table.merge old)
      ((Call.through copy (.record values)).perform s).2.engine.store := by
  cases hf : s.copies[copy]? with
  | none => simpa [recorded?, Call.perform, through_of_none hf, hf] using h
  | some c =>
    have hun := hs.coherent_unbound hf
    have hrecord : Ensures (Use.record values).act ⟨s.engine, c⟩
        (fun _ g => HasResults i (if c.id = some i then Table.merge old values else old) g.state.store)
        (fun _ g => HasResults i old g.state.store) := by
      apply Ensures.bind
      refine (Engine.record_ensures hs.ready values).mono ?_ ?_
      · rintro _ g ⟨_, ⟨rfl, hu⟩ | hd⟩
        · apply Ensures.pure
          rw [hu.store]
          split
          · exact h
          · exact h
        · have hdone := h.done hd hun
          exact Ensures.pure hdone
      · intro _ g hu
        exact hu.store ▸ h
    cases ho : (Use.record values).act ⟨s.engine, c⟩ with
    | ok handed g =>
      have hok := hrecord.of_eq_ok ho
      have hrecorded : s.recorded? i (.through copy (.record values)) =
          if c.id = some i then some values else none := by
        simp [recorded?, Call.perform, through_of_ok hf ho, hf, Except.isOk, Except.toBool]
      rw [hrecorded, Call.perform, through_of_ok hf ho]
      split at hok
      · rename_i hid
        rw [if_pos hid]
        exact hok
      · rename_i hid
        rw [if_neg hid]
        exact hok
    | error f g =>
      have hrecorded : s.recorded? i (.through copy (.record values)) = none := by
        simp [recorded?, Call.perform, through_of_error hf ho, Except.isOk, Except.toBool]
      rw [hrecorded, Call.perform, through_of_error hf ho]
      exact hrecord.of_eq_error ho

private theorem HasResults.perform (h : HasResults i old s.engine.store) (hs : s.Sound) (call : Call) :
    HasResults i ((s.recorded? i call).toList.foldl Table.merge old)
      (call.perform s).2.engine.store := by
  by_cases hcall : ∃ copy values, call = .through copy (.record values)
  · obtain ⟨copy, values, rfl⟩ := hcall
    exact h.record hs copy values
  · rw [recorded?_eq_none hcall]
    exact h.stepped hs (perform_stepped hs.ready (.call call)) (unrecorded_of_does hcall)

private theorem HasResults.run (h : HasResults i old s.engine.store) (hs : s.Sound) (calls : List Call) :
    HasResults i ((s.recordings i calls).foldl Table.merge old)
      (s.run (calls.map .call)).engine.store := by
  induction calls generalizing s old with
  | nil => exact h
  | cons call rest ih =>
    have hnext := ih (h.perform hs call) (hs.perform (.call call))
    rw [recordings, List.foldl_append]
    exact hnext

/-- After every run of calls, whoever made them and through whichever copies, the results of a
stored context are what the successful recordings on it make of the empty object, one after the
other. -/
theorem results_eq_recordings (hs : s.Fresh) (calls : List Call) {r : Context}
    (hr : (s.run (calls.map .call)).engine.store.row? i = some r) :
    r.results = .object ((s.recordings i calls).foldl Table.merge []) := by
  have hstart : HasResults i [] s.engine.store := by
    refine ⟨?_, fun _ => rfl⟩
    intro r hr
    rw [hs.vacant.row?_eq_none i] at hr
    cases hr
  exact (hstart.run hs.sound calls).row r hr

/-- Of two rivals the second comes too late; a third knows what the first has recorded. -/
theorem results_of_rivals :
    let calls : List Call := [.start oneNode (.int 7) none, .ofContact (.int 7) true,
      .through 0 (.record [("a", .int 1)]), .through 1 (.record [("a", .int 2)]),
      .ofContact (.int 7) true, .through 2 (.record [("b", .int 3), ("a", .int 4)])]
    let recordings := [[("a", .int 1)], [("b", .int 3), ("a", .int 4)]]
    inMemory.Fresh ∧ inMemory.recordings (Engine.freshId 1) calls = recordings ∧
      ∃ r, (inMemory.run (calls.map .call)).engine.store.row? (Engine.freshId 1) = some r ∧
        r.results = .object (recordings.foldl Table.merge []) := by
  intro calls recordings
  have hrecordings : inMemory.recordings (Engine.freshId 1) calls = recordings := by
    decide +kernel
  have hrow : ((inMemory.run (calls.map .call)).engine.store.row? (Engine.freshId 1)).isSome := by
    decide +kernel
  obtain ⟨r, hr⟩ := Option.isSome_iff_exists.mp hrow
  have hresults := results_eq_recordings fresh_inMemory calls hr
  exact ⟨fresh_inMemory, hrecordings, r, hr, hrecordings ▸ hresults⟩

end DurableFlow.Session
