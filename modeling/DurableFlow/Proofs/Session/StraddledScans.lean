import DurableFlow.Proofs.Engine.TickSteps
import DurableFlow.Proofs.Session.Requests
import DurableFlow.Proofs.Store.SharedServers

/-! Scans of a server that others come between. First the ids that are due are read from the wakeup set,
then the rows. A row that is written after its id has been read is handed out as it has become, due or
not: nothing looks at its wakeup time again, and its version is the new one. -/
namespace DurableFlow.Session
open Engine (come_of_mirrors resume resume_ensures)
open Store (Come Fits Keys Mirrors row?)

/-! ## One scan -/

private theorem row_of_dueIds {k : Keys} (hs : k.Sound) {now : Moment} (hnow : now.IsShown)
    {limit : Json} {ids : List String} (h : k.dueIds (some now) limit = .ok ids) {i : String}
    (hi : i ∈ ids) :
    ∃ r, row? i (.keys k) = some r ∧ r.id = some i ∧ r.completed = none ∧ Come now r := by
  obtain ⟨row, ms, latest, hrow, hopen, hwake, hlatest, hle⟩ := Store.waiting_of_dueIds hs h hi
  cases hlatest
  obtain ⟨row', heq, hid⟩ := hs.rows i _ hrow
  cases heq
  have hms : ms ≤ now.millis := Store.Scored.le_of_scoreOf_le hnow.millis_lt hle
  have hwakeup : row.context.wakeup = some (Moment.ofMillis ms) :=
    congrArg (Option.map Moment.ofMillis) hwake
  have hcompleted : row.context.completed = none := congrArg (Option.map Moment.ofMillis) hopen
  exact ⟨row.context, by simp only [row?, hrow], congrArg some hid, hcompleted,
    Store.come_of_millis hwakeup hms⟩

private theorem resumed_row {e : Engine} (he : e.Ready) {c : Context} {i : String} (hid : c.id = some i)
    (hf : Fits e.store c) {g : Holding Engine Context} (h : resume ⟨e, c⟩ = .ok () g) :
    c.completed = none ∧ ∃ r r', e.store.row? i = some r ∧ r.version = c.version ∧
      Mirrors e.store.kind r c ∧ g.state.store.row? i = some r' ∧ r'.wakeup = none := by
  obtain ⟨-, j, r, time, updated, hj, ho, hch, hv | ⟨_, hfinish⟩, -⟩ := (resume_ensures he).of_eq_ok h
  · cases hid.symm.trans hj
    obtain ⟨-, hm⟩ := hf.row hid hch.found
    exact ⟨ho, r, _, hch.found, hv.symm, hm hv, hch.row, rfl⟩
  · cases hfinish

/-- Ids that are due are read, then any requests are made, and then the rows of the ids are read. The rows
come in the order of the ids. Every one of them was due when the ids were read, and still is if nobody has
written it since. However much later one of them is resumed, that succeeds only while the row says
what was handed out; so a completed one is refused. -/
theorem straddled_scan {session : Session} (hs : session.Fresh) (before between after : List Request)
    {k k' : Keys} (hk : (session.run before).engine.store = .keys k)
    (hk' : ((session.run before).run between).engine.store = .keys k') {now : Moment}
    (hnow : now.IsShown) {limit : Json} {ids : List String}
    (hids : k.dueIds (some now) limit = .ok ids) {cs : List Context} (hcs : k'.rowsOf ids = .ok cs) :
    let last := (((session.run before).run between).run after).engine
    cs.map Context.id = ids.map some ∧
    ∀ c ∈ cs, ∃ i r r', c.id = some i ∧
      (row? i (.keys k) = some r ∧ r.completed = none ∧ Come now r) ∧
      (row? i (.keys k') = some r' ∧ c.version = r'.version ∧ Mirrors .keys r' c) ∧
      (r.version ≤ r'.version ∧ (r.version = r'.version → c.isSuspended = true ∧ Come now c)) ∧
      (∀ f g, resume ⟨last, c⟩ = .error f g → g.state.store = last.store) ∧
      ∀ g, resume ⟨last, c⟩ = .ok () g → c.completed = none ∧
        ∃ r₁ r₂, last.store.row? i = some r₁ ∧ r₁.version = r'.version ∧ Mirrors last.store.kind r₁ c ∧
          g.state.store.row? i = some r₂ ∧ r₂.wakeup = none := by
  intro last
  have hsound := hs.sound.run before
  have hsound' := hsound.run between
  have hkeys : k.Sound := by
    have hstore := hsound.ready.sound
    rwa [hk] at hstore
  have hkeys' : k'.Sound := by
    have hstore := hsound'.ready.sound
    rwa [hk'] at hstore
  -- a row that was listed fits what it has become
  have hrow {i : String} (hi : i ∈ ids) : ∃ r, row? i (.keys k) = some r ∧ r.id = some i ∧
      r.completed = none ∧ Come now r ∧ Fits (.keys k') r := by
    obtain ⟨r, hr, hid, hopen, hcome⟩ := row_of_dueIds hkeys hnow hids hi
    have hfits : Fits (.keys k) r := ⟨i, r, hid, hr, Int.le_refl _, fun _ => Store.mirrors_row hr⟩
    rw [← hk] at hfits
    exact ⟨r, hr, hid, hopen, hcome, hk' ▸ hsound.fits_run between hfits⟩
  refine ⟨Store.rowsOf_ids hkeys' hcs fun i hi => ?_, fun c hc => ?_⟩
  · obtain ⟨r, -, hid, -, -, j, r', hj, hr', -⟩ := hrow hi
    cases hid.symm.trans hj
    exact ⟨r', hr'⟩
  · obtain ⟨i, hi, hcopied, hid⟩ := Store.rowsOf_copied hkeys' hcs hc
    obtain ⟨r, hr, hrid, hopen, hcome, hfits⟩ := hrow hi
    have hcurrent := hcopied.current
    obtain ⟨r', hr'⟩ := hcurrent.exists_row hid
    obtain ⟨hversion, hmirrors⟩ := hcurrent.row hid hr'
    obtain ⟨hle, hsame⟩ := hfits.row hrid hr'
    have hlast : Fits last.store c := (hsound'.fits_run after (hk' ▸ hcurrent.fits))
    have hready := (hsound'.run after).ready
    refine ⟨i, r, r', hid, ⟨hr, hopen, hcome⟩, ⟨hr', hversion, hmirrors⟩, ⟨hle, fun heq => ?_⟩,
      fun f g ho => ((resume_ensures hready).of_eq_error ho).store, fun g ho => ?_⟩
    · have hopen' : c.completed = none :=
        hmirrors.completed_eq_none.mp ((hsame heq).completed_eq_none.mpr hopen)
      obtain ⟨j, r'', hj, hr'', hcopy⟩ := hcopied
      cases hid.symm.trans hj
      cases hr'.symm.trans hr''
      have hcome' : Come now c := by
        have hawaited : Store.Awaited .keys now r := Store.awaited_of_row hr hcome
        have hrow : Come now r' := come_of_mirrors (hsame heq) hawaited
        rw [hcopy]
        exact hrow
      obtain ⟨w, hw, hbefore⟩ := hcome'
      refine ⟨?_, w, hw, hbefore⟩
      simp [Context.isSuspended, Context.status, hopen', hw]
    · obtain ⟨ho', r₁, r₂, hr₁, hv₁, hm₁, hr₂⟩ := resumed_row hready hid hlast ho
      exact ⟨ho', r₁, r₂, hr₁, hv₁.trans hversion, hm₁, hr₂⟩

/-! ## Rows that have changed since -/

def onServer : Session :=
  ⟨Engine.ofStore (.keys ⟨"", "n", true, []⟩) ⟨.int 1, .int 0, .int 0, .int 1⟩ (.int 100) 0, []⟩

theorem fresh_onServer : onServer.Fresh := ⟨⟨fun _ => rfl, rfl, fun _ => rfl⟩, rfl, rfl, rfl⟩

def parkTwo : List Request :=
  [.call (.start oneNode (.int 7) none), .call (.start oneNode (.int 8) none),
    .call (.through 0 (.suspend (some (.utc 0)))), .call (.through 1 (.suspend (some (.utc 0))))]

private def straddle (s s' : Session) : Except Failure (List Context) :=
  match s.engine.store, s'.engine.store with
  | .keys k, .keys k' => do k'.rowsOf (← k.dueIds (some (.utc 0)) .null)
  | _, _ => .ok []

private theorem of_straddle {s s' : Session} {cs : List Context} (h : straddle s s' = .ok cs)
    (hne : cs ≠ []) : ∃ k k' ids, s.engine.store = .keys k ∧ s'.engine.store = .keys k' ∧
      k.dueIds (some (.utc 0)) .null = .ok ids ∧ k'.rowsOf ids = .ok cs := by
  unfold straddle at h
  split at h
  · rename_i k k' hk hk'
    obtain ⟨ids, hids, hrows⟩ := Store.bind_eq_ok.mp h
    exact ⟨k, k', ids, hk, hk', hids, hrows⟩
  · cases h
    exact (hne rfl).elim

private theorem exists_of_map {β : Type} {r : Except Failure (List Context)} {f : Context → β}
    {ys : List β} (h : (r.map (List.map f)).toOption = some ys) : ∃ cs, r = .ok cs ∧ cs.map f = ys := by
  cases r with
  | ok cs => exact ⟨cs, rfl, Option.some.inj h⟩
  | error _ => cases h

/-- Between the halves of a scan one of two contexts that are due is resumed. The other one is handed out
as it was, and is due. -/
theorem straddled_scan_one_resumed :
    let before := onServer.run parkTwo
    let between : List Request := [.call (.through 0 .resume)]
    (onServer.Fresh ∧ (Moment.utc 0).IsShown) ∧ ∃ k k' ids c c',
      (before.engine.store = .keys k ∧ (before.run between).engine.store = .keys k' ∧
        k.dueIds (some (.utc 0)) .null = .ok ids ∧ k'.rowsOf ids = .ok [c, c']) ∧
      [c.id, c'.id] = ids.map some ∧ c'.isSuspended = true ∧ Come (.utc 0) c' := by
  intro before between
  have hshown : (Moment.utc 0).IsShown := by decide
  -- the versions that are handed out, beside those of the rows when the ids were read
  let versions (c : Context) : Int × Option Int :=
    (c.version, (c.id.bind fun i => before.engine.store.row? i).map Context.version)
  have hversions : ((straddle before (before.run between)).map (List.map versions)).toOption =
      some [(3, some 2), (2, some 2)] := by
    decide +kernel
  obtain ⟨cs, hcs, hmap⟩ := exists_of_map hversions
  obtain ⟨c, rest, rfl, -, hrest⟩ := List.map_eq_cons_iff.mp hmap
  obtain ⟨c', rest, rfl, hc', hnil⟩ := List.map_eq_cons_iff.mp hrest
  cases List.map_eq_nil_iff.mp hnil
  obtain ⟨k, k', ids, hk, hk', hids, hrows⟩ := of_straddle hcs (List.cons_ne_nil _ _)
  obtain ⟨hall, hdue⟩ := straddled_scan fresh_onServer parkTwo between [] hk hk' hshown hids hrows
  obtain ⟨i, r, r', hid, ⟨hr, -⟩, ⟨-, hversion, -⟩, ⟨-, hsame⟩, -⟩ :=
    hdue c' (List.mem_cons_of_mem _ List.mem_cons_self)
  obtain ⟨hnew, hold⟩ := Prod.mk.inj hc'
  rw [hid, hk, Option.bind_some, hr] at hold
  have heq : r.version = r'.version := by
    rw [← hversion, hnew]
    exact Option.some.inj hold
  exact ⟨⟨fresh_onServer, hshown⟩, k, k', ids, c, c', ⟨hk, hk', hids, hrows⟩, hall, hsame heq⟩

private def handsOutUndue (s s' : Session) : Bool :=
  match straddle s s' with
  | .ok (c :: _) => c.wakeup.all ((Moment.utc 0).isBefore ·) &&
      match resume ⟨s'.engine, c⟩ with
      | .ok _ _ => true
      | .error _ _ => false
  | _ => false

private theorem of_handsOutUndue {s s' : Session} (h : handsOutUndue s s' = true) :
    ∃ k k' ids cs c g, s.engine.store = .keys k ∧ s'.engine.store = .keys k' ∧
      k.dueIds (some (.utc 0)) .null = .ok ids ∧ k'.rowsOf ids = .ok cs ∧ c ∈ cs ∧
      ¬ Come (.utc 0) c ∧ resume ⟨s'.engine, c⟩ = .ok () g := by
  unfold handsOutUndue at h
  split at h
  · rename_i c rest hcs
    obtain ⟨k, k', ids, hk, hk', hids, hrows⟩ := of_straddle hcs (List.cons_ne_nil _ _)
    obtain ⟨hundue, hresumed⟩ := Bool.and_eq_true_iff.mp h
    split at hresumed
    · rename_i g hg
      refine ⟨k, k', ids, c :: rest, c, g, hk, hk', hids, hrows, List.mem_cons_self, ?_, hg⟩
      rintro ⟨w, hw, hle⟩
      rw [hw] at hundue
      exact absurd hle (ne_false_of_eq_true hundue)
    · cases hresumed
  · cases h

/-- A scan hands out what is not due, and it can be resumed: when another worker has resumed it after the
ids were read, or has suspended it again until a later time. Nor does it take a second client, where
the pattern of a namespace misses the wakeup set: a reset leaves an id there, and it is listed when it
is given to a new context. -/
theorem straddled_scan_hands_out_undue :
    (∀ use ∈ [Use.resume, .suspend (some (.utc 3600000000))],
      let before := onServer.run parkTwo
      let after := before.run [.call (.through 0 use)]
      ∃ k k' ids cs c g, before.engine.store = .keys k ∧ after.engine.store = .keys k' ∧
        k.dueIds (some (.utc 0)) .null = .ok ids ∧ k'.rowsOf ids = .ok cs ∧ c ∈ cs ∧
        ¬ Come (.utc 0) c ∧ resume ⟨after.engine, c⟩ = .ok () g) ∧
    let s : Store.Shared := ⟨[], fun _ => ⟨"", "*[1]", true⟩⟩
    let c : Context :=
      ⟨some "1:a", .int 1, 1, some "fu", .string "n1", none, none, none, .object [], 0, .utc 0, .utc 0, none⟩
    let k := (s.run [(.first, .insert "" (.utc 0) { c with wakeup := some (.utc 0) }), (.first, .reset),
      (.first, .insert "" (.utc 0) c)]).store .first
    ∃ c', k.due (some (.utc 0)) .null = .ok [c'] ∧ c'.isSuspended = false := by
  refine ⟨fun use huse => ?_, ?_⟩
  · have hundue : handsOutUndue (onServer.run parkTwo)
        ((onServer.run parkTwo).run [.call (.through 0 use)]) = true := by
      simp only [List.mem_cons, List.not_mem_nil, or_false] at huse
      rcases huse with rfl | rfl
      · decide +kernel
      · decide +kernel
    exact of_handsOutUndue hundue
  · intro s c k
    have hlisted : ((k.due (some (.utc 0)) .null).map (List.map Context.isSuspended)).toOption =
        some [false] := by
      decide +kernel
    obtain ⟨cs, hcs, hmap⟩ := exists_of_map hlisted
    obtain ⟨c', rest, rfl, hc', hnil⟩ := List.map_eq_cons_iff.mp hmap
    cases List.map_eq_nil_iff.mp hnil
    exact ⟨c', hcs, hc'⟩

end DurableFlow.Session
